import TripleStore.Build

/-!
# Running operations

What each way of putting operations together does when it is run on a tree, for operations on the
tree alone and for those on a builder. An operation that fails makes every sequence that it stands
in fail with the same error, whatever is cleaned up on the way.
-/

namespace TripleStore

/-! ## Loops -/

/-- **A loop of steps that keep an invariant.** `R` says where an operation leads; the invariant
knows the items that were taken. -/
theorem forM_of_steps {m : Type → Type} [Monad m] {σ α : Type} {R : m Unit → σ → σ → Prop}
    (hpure : ∀ s, R (pure ()) s s)
    (hbind : ∀ {x y s s' s''}, R x s s' → R y s' s'' → R (x >>= fun _ => y) s s'')
    {f : α → m Unit} {P : List α → σ → Prop} {l : List α}
    (hstep : ∀ before a after s, l = before ++ a :: after → P before s →
      ∃ s', R (f a) s s' ∧ P (before ++ [a]) s')
    {s : σ} (h : P [] s) : ∃ s', R (l.forM f) s s' ∧ P l s' := by
  suffices hrest : ∀ after before s, l = before ++ after → P before s →
      ∃ s', R (after.forM f) s s' ∧ P l s' from hrest l [] s rfl h
  intro after
  induction after with
  | nil =>
    intro before s hl h
    rw [List.append_nil] at hl
    exact ⟨s, hpure s, hl ▸ h⟩
  | cons a after ih =>
    intro before s hl h
    obtain ⟨s₁, hrun₁, h₁⟩ := hstep before a after s hl h
    obtain ⟨s₂, hrun₂, h₂⟩ := ih (before ++ [a]) s₁ (by simp [hl]) h₁
    exact ⟨s₂, hbind hrun₁ hrun₂, h₂⟩

/-! ## On a tree -/

namespace Disk

variable {α β : Type} {t t' : FileTree} {a : α} {e : StoreError}

@[simp] theorem apply_pure (a : α) (t : FileTree) : (pure a : Disk α).apply t = (.ok a, t) := rfl

@[simp] theorem apply_get (t : FileTree) : (get : Disk FileTree).apply t = (.ok t, t) := rfl

@[simp] theorem apply_ofResult (r : Result α) (t : FileTree) :
    (ofResult r).apply t = (r, t) := rfl

/-- A sequence goes on from the tree that its first operation leaves. -/
theorem apply_bind (x : Disk α) (f : α → Disk β) (t : FileTree) :
    (x >>= f).apply t =
      match x.apply t with
      | (.ok a, t) => (f a).apply t
      | (.error e, t) => (.error e, t) := by
  unfold apply ExceptT.run StateT.run
  simp only [bind, ExceptT.bind, ExceptT.mk, StateT.bind, ExceptT.bindCont]
  obtain ⟨r, t'⟩ := x t
  cases r <;> rfl

theorem apply_bind_of_ok {x : Disk α} {f : α → Disk β} (h : x.apply t = (.ok a, t')) :
    (x >>= f).apply t = (f a).apply t' := by
  rw [apply_bind, h]

theorem apply_bind_of_error {x : Disk α} {f : α → Disk β} (h : (x.apply t).1 = .error e) :
    ((x >>= f).apply t).1 = .error e := by
  rw [apply_bind]
  cases hx : x.apply t with
  | mk r t' =>
    rw [hx] at h
    obtain rfl : r = .error e := h
    rfl

theorem apply_look {f : FileTree → Except FileFault α} (h : f t = .ok a) :
    (look f).apply t = (.ok a, t) := by
  change ((f t).mapError StoreError.io, t) = _
  rw [h]
  rfl

theorem apply_look_of_error {f : FileTree → Except FileFault α} {fault : FileFault}
    (h : f t = .error fault) : (look f).apply t = (.error (.io fault), t) := by
  change ((f t).mapError StoreError.io, t) = _
  rw [h]
  rfl

theorem apply_change_eq (f : FileTree → Except FileFault (α × FileTree)) (t : FileTree) :
    (change f).apply t =
      match f t with
      | .ok (a, t) => (.ok a, t)
      | .error fault => (.error (.io fault), t) := by
  unfold change apply ExceptT.run StateT.run
  simp only [ExceptT.mk, bind, StateT.bind, get, getThe, MonadStateOf.get, StateT.get, pure]
  cases f t <;> rfl

theorem apply_change {f : FileTree → Except FileFault (α × FileTree)} (h : f t = .ok (a, t')) :
    (change f).apply t = (.ok a, t') := by
  rw [apply_change_eq, h]

theorem apply_update {f : FileTree → Except FileFault FileTree} (h : f t = .ok t') :
    (update f).apply t = (.ok (), t') :=
  apply_change (by rw [h]; rfl)

theorem apply_update_of_error {f : FileTree → Except FileFault FileTree} {fault : FileFault}
    (h : f t = .error fault) : (update f).apply t = (.error (.io fault), t) := by
  rw [update, apply_change_eq, h]
  rfl

theorem apply_undoing_eq (body : Disk α) (cleanup : Disk Unit) (t : FileTree) :
    (undoing body cleanup).apply t =
      match body.apply t with
      | (.ok a, t) => (.ok a, t)
      | (.error e, t) => (.error e, (cleanup.apply t).2) := by
  unfold undoing apply ExceptT.run StateT.run
  simp only [ExceptT.mk, bind, StateT.bind]
  obtain ⟨r, t'⟩ := body t
  cases r <;> rfl

/-- An update that fails leaves the tree as it is. -/
theorem snd_apply_update (f : FileTree → Except FileFault FileTree) (t : FileTree) :
    f t = .ok ((update f).apply t).2 ∨ ((update f).apply t).2 = t := by
  rw [update, apply_change_eq]
  cases f t with
  | ok t' => exact .inl rfl
  | error fault => exact .inr rfl

theorem apply_monadLift (x : StateM FileTree α) (t : FileTree) :
    (liftM x : Disk α).apply t = (.ok (x t).1, (x t).2) := rfl

/-- What succeeds is not undone. -/
theorem apply_undoing {body : Disk α} (cleanup : Disk Unit) (h : body.apply t = (.ok a, t')) :
    (undoing body cleanup).apply t = (.ok a, t') := by
  rw [apply_undoing_eq, h]

/-- Cleaning up does not change the answer. -/
theorem fst_apply_undoing (body : Disk α) (cleanup : Disk Unit) (t : FileTree) :
    ((undoing body cleanup).apply t).1 = (body.apply t).1 := by
  rw [apply_undoing_eq]
  obtain ⟨r, t'⟩ := body.apply t
  cases r <;> rfl

/-- A list of operations that only look at the tree. -/
theorem apply_mapM {f : α → Disk β} {g : α → β} {l : List α}
    (h : ∀ a ∈ l, (f a).apply t = (.ok (g a), t)) :
    (l.mapM f).apply t = (.ok (l.map g), t) := by
  induction l with
  | nil => rfl
  | cons a l ih =>
    rw [List.mapM_cons, apply_bind_of_ok (h a (by simp)),
      apply_bind_of_ok (ih fun b hb => h b (by simp [hb]))]
    rfl

/-- A loop of operations that keep an invariant. -/
theorem forM_of_step {f : α → Disk Unit} {P : List α → FileTree → Prop} {l : List α}
    (hstep : ∀ before a after t, l = before ++ a :: after → P before t →
      ∃ t', (f a).apply t = (.ok (), t') ∧ P (before ++ [a]) t')
    (h : P [] t) : ∃ t', (l.forM f).apply t = (.ok (), t') ∧ P l t' :=
  forM_of_steps (R := fun (x : Disk Unit) t t' => x.apply t = (.ok (), t')) (fun _ => rfl)
    (fun hx hy => (apply_bind_of_ok hx).trans hy) hstep h

end Disk

/-! ## On a builder -/

namespace Build

variable {σ τ α β : Type} {s s' : σ} {t t' : FileTree} {a : α} {e : StoreError}

@[simp] theorem apply_pure (a : α) (s : σ) (t : FileTree) :
    (pure a : Build σ α).apply s t = (.ok a, s, t) := rfl

@[simp] theorem apply_get (s : σ) (t : FileTree) :
    (get : Build σ σ).apply s t = (.ok s, s, t) := rfl

@[simp] theorem apply_modify (f : σ → σ) (s : σ) (t : FileTree) :
    (modify f : Build σ Unit).apply s t = (.ok (), f s, t) := rfl

@[simp] theorem apply_ofResult (r : Result α) (s : σ) (t : FileTree) :
    (ofResult r : Build σ α).apply s t = (r, s, t) := rfl

@[simp] theorem apply_disk (x : Disk α) (s : σ) (t : FileTree) :
    (disk x : Build σ α).apply s t = ((x.apply t).1, s, (x.apply t).2) := rfl

@[simp] theorem apply_part (get : σ → τ) (set : σ → τ → σ) (x : Build τ α) (s : σ) (t : FileTree) :
    (part get set x).apply s t =
      ((x.apply (get s) t).1, set s (x.apply (get s) t).2.1, (x.apply (get s) t).2.2) := rfl

theorem apply_bind (x : Build σ α) (f : α → Build σ β) (s : σ) (t : FileTree) :
    (x >>= f).apply s t =
      match x.apply s t with
      | (.ok a, s, t) => (f a).apply s t
      | (.error e, s, t) => (.error e, s, t) := by
  unfold apply ExceptT.run StateT.run
  simp only [bind, ExceptT.bind, ExceptT.mk, StateT.bind, ExceptT.bindCont]
  obtain ⟨⟨r, s'⟩, t'⟩ := x s t
  cases r <;> rfl

theorem apply_bind_of_ok {x : Build σ α} {f : α → Build σ β} (h : x.apply s t = (.ok a, s', t')) :
    (x >>= f).apply s t = (f a).apply s' t' := by
  rw [apply_bind, h]

theorem apply_bind_of_error {x : Build σ α} {f : α → Build σ β} (h : (x.apply s t).1 = .error e) :
    ((x >>= f).apply s t).1 = .error e := by
  rw [apply_bind]
  cases hx : x.apply s t with
  | mk r rest =>
    rw [hx] at h
    obtain rfl : r = .error e := h
    rfl

/-- An operation goes on after a check that holds. -/
theorem apply_require_of_pos {c : Prop} [Decidable c] (h : c) (e : StoreError)
    (f : Unit → Build σ β) (s : σ) (t : FileTree) :
    (ofResult (require c e) >>= f).apply s t = (f ()).apply s t :=
  apply_bind_of_ok (by rw [apply_ofResult, require, if_pos h])

/-- A check that does not hold ends an operation, and changes nothing. -/
theorem apply_require_of_neg {c : Prop} [Decidable c] (h : ¬ c) (e : StoreError)
    (f : Unit → Build σ β) (s : σ) (t : FileTree) :
    (ofResult (require c e) >>= f).apply s t = (.error e, s, t) := by
  rw [apply_bind, apply_ofResult, require, if_neg h]

/-- A loop of operations on a builder that keep an invariant. -/
theorem forM_of_step {f : α → Build σ Unit} {P : List α → σ → FileTree → Prop} {l : List α}
    (hstep : ∀ before a after s t, l = before ++ a :: after → P before s t →
      ∃ s' t', (f a).apply s t = (.ok (), s', t') ∧ P (before ++ [a]) s' t')
    (h : P [] s t) :
    ∃ s' t', (l.forM f).apply s t = (.ok (), s', t') ∧ P l s' t' := by
  obtain ⟨⟨s', t'⟩, hrun, h'⟩ := forM_of_steps
    (R := fun (x : Build σ Unit) u v => x.apply u.1 u.2 = (.ok (), v))
    (P := fun before (u : σ × FileTree) => P before u.1 u.2) (fun _ => rfl)
    (fun hx hy => (apply_bind_of_ok hx).trans hy)
    (fun before a after u hl hu => by
      obtain ⟨s₁, t₁, hrun, h₁⟩ := hstep before a after u.1 u.2 hl hu
      exact ⟨(s₁, t₁), hrun, h₁⟩)
    (show P [] (s, t).1 (s, t).2 from h)
  exact ⟨s', t', hrun, h'⟩

theorem forM_append_eq (f : α → Build σ Unit) (l r : List α) :
    (l ++ r).forM f = l.forM f >>= fun _ => r.forM f := by
  induction l with
  | nil => exact (pure_bind () fun _ => r.forM f).symm
  | cons a l ih =>
    change (f a >>= fun _ => (l ++ r).forM f) = (f a >>= fun _ => l.forM f) >>= fun _ => r.forM f
    rw [ih, bind_assoc]

/-- A loop goes on after a call that succeeds. -/
theorem apply_forM_append {f : α → Build σ Unit} {l r : List α} {s₁ s₂ : σ} {t₁ t₂ : FileTree}
    (hl : (l.forM f).apply s t = (.ok (), s₁, t₁)) (ha : (f a).apply s₁ t₁ = (.ok (), s₂, t₂)) :
    ((l ++ a :: r).forM f).apply s t = (r.forM f).apply s₂ t₂ := by
  rw [forM_append_eq, apply_bind_of_ok hl]
  exact apply_bind_of_ok ha

/-- A loop fails where its first step fails. -/
theorem fst_apply_forM_append {f : α → Build σ Unit} {l r : List α} {a : α}
    (hl : (l.forM f).apply s t = (.ok (), s', t')) (ha : ((f a).apply s' t').1 = .error e) :
    (((l ++ a :: r).forM f).apply s t).1 = .error e := by
  rw [forM_append_eq, apply_bind_of_ok hl]
  exact apply_bind_of_error ha

end Build

theorem Disk.apply_build_eq {σ : Type} (x : Build σ Unit) (s : σ) (t : FileTree) :
    (Disk.build s x).apply t =
      match x.apply s t with
      | (.ok (), s, t) => (.ok s, t)
      | (.error e, _, t) => (.error e, t) := rfl

theorem Disk.apply_build {σ : Type} {x : Build σ Unit} {s s' : σ} {t t' : FileTree}
    (h : x.apply s t = (.ok (), s', t')) : (Disk.build s x).apply t = (.ok s', t') := by
  rw [apply_build_eq, h]

theorem Disk.fst_apply_build {σ : Type} {x : Build σ Unit} {s : σ} {t : FileTree} {e : StoreError}
    (h : (x.apply s t).1 = .error e) : ((Disk.build s x).apply t).1 = .error e := by
  rw [apply_build_eq]
  cases hx : x.apply s t with
  | mk r rest =>
    rw [hx] at h
    obtain rfl : r = .error e := h
    rfl

end TripleStore
