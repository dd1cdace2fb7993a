import TripleStore.Proofs.Canonical
import TripleStore.Proofs.TripleIndex.Received

/-!
# Index writers that share a folder

A writer names its runs after its order, so two writers of one order that sort in one folder write
their runs to the same files. Their pushes succeed nevertheless (`Stage.push`). What counts is
whether one of the two is quiet, that is, has not written a run when the first of them finishes.
Then neither disturbs the other (`files_of_quiet`). Else the first one that finishes, if it does so
at all, removes a run that the other one is going to need (`error_of_not_quiet`).
-/

namespace TripleStore

/-- One of two. -/
inductive Side
  | left
  | right
  deriving DecidableEq

/-- The other one of two. -/
def Side.other : Side → Side
  | .left => .right
  | .right => .left

/-- Something for each of two. -/
def Side.pick {α : Type} (l r : α) : Side → α
  | .left => l
  | .right => r

theorem Side.pick_eq {α : Type} (f : Side → α) : Side.pick (f .left) (f .right) = f := by
  funext side
  cases side <;> rfl

theorem Side.eq_other_of_ne {a b : Side} (h : a ≠ b) : a = b.other := by
  cases a <;> cases b <;> first | rfl | exact absurd rfl h

theorem Side.other_ne (a : Side) : a.other ≠ a := by
  cases a <;> decide

namespace IndexWriter

/-! ## Calls of two writers -/

/-- What a writer is asked to do. -/
inductive Call
  | push (row : Row)
  | finish
  deriving DecidableEq

/-- Calls one of two writers. -/
def call (targets : Side → Path) : Side × Call → Build (Side → IndexWriter) Unit
  | (side, .push row) => Build.part (· side) (Function.update · side) (push row)
  | (side, .finish) => do
    let writers ← get
    let _ ← Build.disk ((writers side).finish (targets side))

/-- Calls two new writers of one order, which sort in one folder, as long as no call fails. -/
def interleaved (folder : Path) (order : RoleOrder) (budgets : Side → Nat) (targets : Side → Path)
    (calls : List (Side × Call)) : Disk Unit := do
  let left ← create folder order (budgets .left)
  let right ← create folder order (budgets .right)
  let _ ← Disk.build (Side.pick left right) (calls.forM (call targets))

/-- The calls of one of two writers. -/
def callsOf (side : Side) (calls : List (Side × Call)) : List Call :=
  (calls.filter (·.1 = side)).map (·.2)

/-- Both writers are given their rows, and then finish. -/
def Interleaves (rows : Side → List Row) (calls : List (Side × Call)) : Prop :=
  ∀ side, callsOf side calls = (rows side).map .push ++ [.finish]

/-- The calls before the first writer finishes. -/
def opening (calls : List (Side × Call)) : List (Side × Call) :=
  calls.takeWhile fun c => c.2 ≠ .finish

/-- A writer has not written a run when the first one finishes: its rows, of 24 bytes each, have not
come up to its budget. -/
def Quiet (budget : Nat) (calls : List (Side × Call)) (side : Side) : Prop :=
  24 * (callsOf side (opening calls)).length < max budget 1

/-- Gives a row to one of two writers. -/
def give (entry : Side × Row) : Side × Call := (entry.1, .push entry.2)

/-- The rows that one of two writers is given. -/
def rowsOf (side : Side) (given : List (Side × Row)) : List Row :=
  (given.filter (·.1 = side)).map (·.2)

section

variable {side : Side} {row : Row} {c : Call} {calls : List (Side × Call)}
  {given : List (Side × Row)} {rows : Side → List Row}

theorem callsOf_cons (s : Side) : callsOf side ((s, c) :: calls) =
    if s = side then c :: callsOf side calls else callsOf side calls := by
  unfold callsOf
  split <;> simp [*]

theorem rowsOf_cons (s : Side) : rowsOf side ((s, row) :: given) =
    if s = side then row :: rowsOf side given else rowsOf side given := by
  unfold rowsOf
  split <;> simp [*]

theorem rowsOf_concat (s : Side) : rowsOf side (given ++ [(s, row)]) =
    rowsOf side given ++ if s = side then [row] else [] := by
  unfold rowsOf
  split <;> simp [*]

/-- Where one writer is not called, the other one is. -/
theorem eq_map_of_callsOf_eq_nil (h : callsOf side calls = []) :
    calls = (callsOf side.other calls).map (Prod.mk side.other) := by
  induction calls with
  | nil => rfl
  | cons entry calls ih =>
    obtain ⟨s, c⟩ := entry
    rw [callsOf_cons] at h ⊢
    by_cases hs : s = side
    · rw [if_pos hs] at h
      cases h
    · rw [if_neg hs] at h
      have hother := Side.eq_other_of_ne hs
      rw [if_pos hother, List.map_cons, ← ih h, hother]

/-- **Two writers are given rows until the first one finishes, then the other one is.** -/
theorem Interleaves.split (h : Interleaves rows calls) :
    ∃ (given : List (Side × Row)) (first : Side) (after : List Row),
      calls = given.map give ++ (first, .finish) ::
        (after.map (fun row => give (first.other, row)) ++ [(first.other, .finish)]) ∧
      rowsOf first given = rows first ∧ rowsOf first.other given ++ after = rows first.other := by
  induction calls generalizing rows with
  | nil => simpa [callsOf] using h .left
  | cons entry calls ih =>
    obtain ⟨s, c⟩ := entry
    have hs := h s
    rw [callsOf_cons, if_pos rfl] at hs
    have hothers : ∀ side, s ≠ side → callsOf side calls = (rows side).map .push ++ [.finish] := by
      intro side hne
      have hside := h side
      rwa [callsOf_cons, if_neg hne] at hside
    cases c with
    | push row =>
      cases hrows : rows s with
      | nil => simp [hrows] at hs
      | cons row' rest =>
        obtain ⟨⟨⟩, hrest⟩ : Call.push row = .push row' ∧
            callsOf s calls = rest.map .push ++ [.finish] := by
          simpa [hrows] using hs
        have hinterleaves : Interleaves (Function.update rows s rest) calls := by
          intro side
          by_cases hside : s = side
          · rw [← hside, Function.update_self, hrest]
          · rw [Function.update_of_ne (Ne.symm hside), hothers side hside]
        obtain ⟨given, first, after, rfl, hfirst, hother⟩ := ih hinterleaves
        refine ⟨(s, row) :: given, first, after, rfl, ?_, ?_⟩
        · rw [rowsOf_cons, hfirst]
          by_cases hside : s = first
          · rw [if_pos hside, ← hside, Function.update_self, hrows]
          · rw [if_neg hside, Function.update_of_ne (Ne.symm hside)]
        · rw [rowsOf_cons]
          by_cases hside : s = first.other
          · rw [if_pos hside, List.cons_append, hother, ← hside, Function.update_self, hrows]
          · rw [if_neg hside, hother, Function.update_of_ne (Ne.symm hside)]
    | finish =>
      cases hrows : rows s with
      | cons row rest => simp [hrows] at hs
      | nil =>
        have hnone : callsOf s calls = [] := by simpa [hrows] using hs
        have hcalls := eq_map_of_callsOf_eq_nil hnone
        rw [hothers s.other (Side.other_ne s).symm, List.map_append, List.map_map] at hcalls
        exact ⟨[], s, rows s.other, by rw [hcalls]; rfl, hrows.symm, rfl⟩

theorem callsOf_map_give : callsOf side (given.map give) = (rowsOf side given).map .push := by
  induction given with
  | nil => rfl
  | cons entry given ih =>
    obtain ⟨s, row⟩ := entry
    rw [List.map_cons, give, callsOf_cons, rowsOf_cons, ih]
    split <;> rfl

/-- Before the first writer finishes, both are given rows. -/
theorem opening_map_give (given : List (Side × Row)) (first : Side) (calls : List (Side × Call)) :
    opening (given.map give ++ (first, .finish) :: calls) = given.map give := by
  have hgive : ∀ c ∈ given.map give, decide (c.2 ≠ .finish) = true := by
    intro c hc
    obtain ⟨entry, -, rfl⟩ := List.mem_map.1 hc
    rfl
  rw [opening, List.takeWhile_append_of_pos hgive, List.takeWhile_cons_of_neg (by simp),
    List.append_nil]

end

/-! ## Both writers -/

variable {folder : Path} {order : RoleOrder} {budget : Nat} {budgets : Side → Nat}
  {targets : Side → Path} {given : List (Side × Row)} {taken : List Row} {row : Row}
  {writers : Side → IndexWriter} {side : Side} {t t' : FileTree}

/-- Two writers that were given nothing. -/
def newcomers (folder : Path) (order : RoleOrder) (budgets : Side → Nat) (side : Side) :
    IndexWriter :=
  { blank order with
    byValue := Sorter.create folder (order.fileName ++ "-by-value") (budgets side) }

/-- Two writers were given rows. As long as one of them has not written a run, the runs of each hold
its rows. -/
structure Stage (folder : Path) (order : RoleOrder) (budgets : Side → Nat) (targets : Side → Path)
    (given : List (Side × Row)) (writers : Side → IndexWriter) (t : FileTree) : Prop where
  ready : ∀ side, Ready t folder order (targets side)
  order_eq : ∀ side, (writers side).order = order
  received : ∀ side, Received folder (order.fileName ++ "-by-value") (budgets side) (writers side)
    (rowsOf side given)
  holds : (∃ side, (writers side).byValue.runs = 0) → ∀ side,
    Sorter.Holds folder (order.fileName ++ "-by-value") t (writers side).byValue
      ((rowsOf side given).map Row.turned)

theorem stage_nothing (h : ∀ side, Ready t folder order (targets side)) (budgets : Side → Nat) :
    Stage folder order budgets targets [] (newcomers folder order budgets) t where
  ready := h
  order_eq _ := rfl
  received side := received_nothing (h side).clear order (budgets side)
  holds _ side := Sorter.holds_create (h side).hasFolder (h side).free (budgets side)

theorem apply_call_push {w' : IndexWriter}
    (h : (push row).apply (writers side) t = (.ok (), w', t')) :
    (call targets (give (side, row))).apply writers t =
      (.ok (), Function.update writers side w', t') := by
  have hcall : call targets (give (side, row)) =
      Build.part (· side) (Function.update · side) (push row) := rfl
  rw [hcall, Build.apply_part, h]

theorem apply_call_finish {n : Nat}
    (h : ((writers side).finish (targets side)).apply t = (.ok n, t')) :
    (call targets (side, .finish)).apply writers t = (.ok (), writers, t') := by
  have hdisk : (Build.disk ((writers side).finish (targets side)) :
      Build (Side → IndexWriter) Nat).apply writers t = (.ok n, writers, t') := by
    rw [Build.apply_disk, h]
  rw [call, Build.apply_bind_of_ok (Build.apply_get writers t), Build.apply_bind_of_ok hdisk]
  rfl

theorem fst_apply_call_finish {e : StoreError}
    (h : (((writers side).finish (targets side)).apply t).1 = .error e) :
    ((call targets (side, .finish)).apply writers t).1 = .error e := by
  rw [call, Build.apply_bind_of_ok (Build.apply_get writers t)]
  refine Build.apply_bind_of_error ?_
  rw [Build.apply_disk, h]

/-- **Both writers take rows**, and as long as one of them has not written a run, the runs of each
hold its rows. -/
theorem Stage.push (h : Stage folder order budgets targets given writers t)
    (hle : ∀ r ∈ rowsOf side given, (compare r row).isLE) :
    ∃ writers' t', (call targets (give (side, row))).apply writers t = (.ok (), writers', t') ∧
      Stage folder order budgets targets (given ++ [(side, row)]) writers' t' := by
  obtain ⟨w', t', hpush, hextends, hsame⟩ := (h.received side).push (h.ready side).clear hle
  have hready := fun side => (h.ready side).of_refiled hextends.refiled
  refine ⟨_, t', apply_call_push hpush, hready, fun s => ?_, fun s => ?_, fun hquiet s => ?_⟩
  · by_cases hs : s = side
    · rw [hs, Function.update_self, hextends.order_eq, h.order_eq]
    · rw [Function.update_of_ne hs, h.order_eq]
  · by_cases hs : s = side
    · subst hs
      rw [Function.update_self, rowsOf_concat, if_pos rfl]
      exact hextends.received
    · rw [Function.update_of_ne hs, rowsOf_concat, if_neg (Ne.symm hs), List.append_nil]
      exact h.received s
  · obtain ⟨q, hq⟩ := hquiet
    have hbefore : ∃ q, (writers q).byValue.runs = 0 := by
      refine ⟨q, ?_⟩
      by_cases hqs : q = side
      · subst hqs
        rw [Function.update_self] at hq
        exact Nat.le_zero.1 (hq ▸ hextends.runs_le)
      · rwa [Function.update_of_ne hqs] at hq
    by_cases hs : s = side
    · subst hs
      rw [Function.update_self, rowsOf_concat, if_pos rfl]
      exact hextends.holds (h.holds hbefore s)
    · rw [Function.update_of_ne hs, rowsOf_concat, if_neg (Ne.symm hs), List.append_nil]
      -- either the tree is as it was, or the other writer is the one without a run
      by_cases hqs : q = side
      · subst hqs
        rw [Function.update_self] at hq
        rw [hsame hq]
        exact h.holds hbefore s
      · obtain rfl : s = q := (Side.eq_other_of_ne hs).trans (Side.eq_other_of_ne hqs).symm
        rw [Function.update_of_ne hs] at hq
        exact (h.holds hbefore s).of_runs_eq_zero hq (hready s).clear

/-- **The rows that both writers are given before one of them finishes.** -/
theorem stage_of_ready (h : ∀ side, Ready t folder order (targets side)) (budgets : Side → Nat)
    (hrows : ∀ side, Ascending (rowsOf side given)) :
    ∃ writers t', ((given.map give).forM (call targets)).apply (newcomers folder order budgets) t =
        (.ok (), writers, t') ∧
      Stage folder order budgets targets given writers t' := by
  have hstep : ∀ before entry after writers t₁, given = before ++ entry :: after →
      Stage folder order budgets targets before writers t₁ →
        ∃ writers' t', (call targets (give entry)).apply writers t₁ = (.ok (), writers', t') ∧
          Stage folder order budgets targets (before ++ [entry]) writers' t' := by
    intro before entry after writers t₁ hgiven hstage
    obtain ⟨side, row⟩ := entry
    refine hstage.push fun r hr => ?_
    have hside := hrows side
    rw [hgiven, rowsOf, List.filter_append, List.map_append] at hside
    exact (List.pairwise_append.1 hside).2.2 r hr row (by simp)
  obtain ⟨writers, t', hrun, hstage⟩ := Build.forM_of_step hstep (stage_nothing h budgets)
  refine ⟨writers, t', ?_, hstage⟩
  rwa [List.forM_eq_forM, List.forM_map]

/-! ## After the first writer finished -/

/-- **If one of the writers has not written a run, the first one that finishes does not disturb the
other.** -/
theorem Stage.finish (h : Stage folder order budgets targets given writers t) (first : Side)
    (hquiet : ∃ side, (writers side).byValue.runs = 0) :
    ∃ t', (call targets (first, .finish)).apply writers t = (.ok (), writers, t') ∧
      (∀ side, Ready t' folder order (targets side)) ∧
      t'.lookup (targets first).place =
        some (.file (TripleIndex.fileOf order (rowsOf first given))) ∧
      Sorter.Holds folder (order.fileName ++ "-by-value") t' (writers first.other).byValue
        ((rowsOf first.other given).map Row.turned) := by
  obtain ⟨groups, htook, hexpand⟩ := (h.received first).took (h.holds hquiet first)
  have hothers := h.holds hquiet first.other
  have hr := h.ready first
  obtain ⟨t', hfinish, -, hfile, -⟩ :=
    finish_of_took hr.sound htook hr.names hr.ending hr.old hr.apart
  obtain ⟨hrefiled, hsame, -⟩ :=
    finish_refiled hr htook.byValue.folder_eq htook.byValue.name_eq hfinish
  have hready := fun side => (h.ready side).of_refiled hrefiled
  refine ⟨t', apply_call_finish hfinish, hready, ?_, ?_⟩
  · rw [hfile, (filed_of_took htook).eq_fileOf, h.order_eq, hexpand]
  · obtain ⟨q, hq⟩ := hquiet
    by_cases hqf : q = first
    · subst hqf
      exact hothers.of_lookup (hready q).hasFolder fun i => hsame hq _ (hr.apart i).symm
    · rw [Side.eq_other_of_ne hqf] at hq
      exact hothers.of_runs_eq_zero hq (hready first).clear

/-- **The rows that a writer is given after the other one finished.** -/
theorem forM_give_of_received {rest : List Row} (hr : Ready t folder order (targets side))
    (h : Received folder (order.fileName ++ "-by-value") budget (writers side) taken)
    (hrows : Ascending (taken ++ rest)) :
    ∃ writers' t',
      ((rest.map fun row => give (side, row)).forM (call targets)).apply writers t =
        (.ok (), writers', t') ∧
      Extends folder (order.fileName ++ "-by-value") budget taken (writers side) t rest
        (writers' side) t' := by
  have hstep : ∀ before row after writers₁ t₁, rest = before ++ row :: after →
      Extends folder (order.fileName ++ "-by-value") budget taken (writers side) t before
        (writers₁ side) t₁ →
      ∃ writers₂ t₂, (call targets (give (side, row))).apply writers₁ t₁ = (.ok (), writers₂, t₂) ∧
        Extends folder (order.fileName ++ "-by-value") budget taken (writers side) t
          (before ++ [row]) (writers₂ side) t₂ := by
    rintro before row after writers₁ t₁ rfl hextends
    have hle : ∀ r ∈ taken ++ before, (compare r row).isLE := by
      rw [← List.append_assoc] at hrows
      exact fun r hr => (List.pairwise_append.1 hrows).2.2 r hr row (by simp)
    obtain ⟨w', t₂, hpush, hextends', -⟩ :=
      hextends.received.push (hr.of_refiled hextends.refiled).clear hle
    refine ⟨_, t₂, apply_call_push hpush, ?_⟩
    rw [Function.update_self]
    exact hextends.trans hextends'
  obtain ⟨writers', t', hrun, hend⟩ := Build.forM_of_step hstep (.refl h hr.sound)
  refine ⟨writers', t', ?_, hend⟩
  rwa [List.forM_eq_forM, List.forM_map]

/-! ## The whole run -/

theorem interleaved_eq (h : t.HasFolder folder) (order : RoleOrder) (budgets : Side → Nat)
    (targets : Side → Path) (calls : List (Side × Call)) :
    (interleaved folder order budgets targets calls).apply t =
      (Disk.build (newcomers folder order budgets) (calls.forM (call targets)) >>= fun _ =>
        pure ()).apply t := by
  rw [interleaved, Disk.apply_bind_of_ok (create_of_hasFolder h order _),
    Disk.apply_bind_of_ok (create_of_hasFolder h order _),
    ← Side.pick_eq (newcomers folder order budgets)]
  rfl

theorem apply_interleaved {calls : List (Side × Call)} (h : t.HasFolder folder)
    (hrun : (calls.forM (call targets)).apply (newcomers folder order budgets) t =
      (.ok (), writers, t')) :
    (interleaved folder order budgets targets calls).apply t = (.ok (), t') := by
  rw [interleaved_eq h, Disk.apply_bind_of_ok (Disk.apply_build hrun)]
  rfl

section

variable {rows : Side → List Row} {calls : List (Side × Call)}
  (h : ∀ side, Ready t folder order (targets side)) (hrows : ∀ side, Ascending (rows side))
  (hcalls : Interleaves rows calls)

include h hrows hcalls

/-- Both writers are given rows before the first one finishes, and then the other one is; a writer
is quiet if it has not written a run by then. -/
theorem stage_of_interleaves (budgets : Side → Nat) :
    ∃ (given : List (Side × Row)) (first : Side) (after : List Row) (writers : Side → IndexWriter)
      (t₁ : FileTree),
      calls = given.map give ++ (first, .finish) ::
        (after.map (fun row => give (first.other, row)) ++ [(first.other, .finish)]) ∧
      rowsOf first given = rows first ∧ rowsOf first.other given ++ after = rows first.other ∧
      ((given.map give).forM (call targets)).apply (newcomers folder order budgets) t =
        (.ok (), writers, t₁) ∧
      Stage folder order budgets targets given writers t₁ ∧
      ∀ side, Quiet (budgets side) calls side ↔ (writers side).byValue.runs = 0 := by
  obtain ⟨given, first, after, rfl, hfirst, hother⟩ := hcalls.split
  have hgiven : ∀ side, Ascending (rowsOf side given) := by
    intro side
    by_cases hside : side = first
    · rw [hside, hfirst]
      exact hrows first
    · have hall := hrows first.other
      rw [← hother] at hall
      rw [Side.eq_other_of_ne hside]
      exact (List.pairwise_append.1 hall).1
  obtain ⟨writers, t₁, hrun, hstage⟩ := stage_of_ready h budgets hgiven
  refine ⟨given, first, after, writers, t₁, rfl, hfirst, hother, hrun, hstage, fun side => ?_⟩
  rw [Quiet, opening_map_give, callsOf_map_give, List.length_map, (hstage.received side).quiet]

/-- **If one of two writers is quiet, both write the files of their rows.** -/
theorem files_of_quiet (hapart : (targets .left).place ≠ (targets .right).place)
    (hquiet : ∃ side, Quiet (budgets side) calls side) :
    ∃ t', (interleaved folder order budgets targets calls).apply t = (.ok (), t') ∧
      ∀ side, t'.load (targets side) = .ok (TripleIndex.fileOf order (rows side)) := by
  obtain ⟨given, first, after, writers, t₁, hsplit, hfirst, hother, hopening, hstage, hiff⟩ :=
    stage_of_interleaves h hrows hcalls budgets
  obtain ⟨t₂, hfinish, hready, hfile, hholds⟩ :=
    hstage.finish first (hquiet.imp fun side => (hiff side).1)
  rw [hfirst] at hfile
  -- the other writer goes on alone
  obtain ⟨writers', t₃, hafter, hextends⟩ := forM_give_of_received (hready first.other)
    (hstage.received first.other) (hother ▸ hrows first.other)
  obtain ⟨groups, htook, hexpand⟩ := hextends.received.took (hextends.holds hholds)
  rw [hother] at hexpand
  have hr := (hready first.other).of_refiled hextends.refiled
  obtain ⟨t₄, hlast, -, hfile', hothers⟩ :=
    finish_of_took hr.sound htook hr.names hr.ending hr.old hr.apart
  obtain ⟨hrefiled', -⟩ := finish_refiled hr htook.byValue.folder_eq htook.byValue.name_eq hlast
  have hdiffer : (targets first).place ≠ (targets first.other).place := by
    cases first
    · exact hapart
    · exact hapart.symm
  have hfiles : ∀ side, t₄.lookup (targets side).place =
      some (.file (TripleIndex.fileOf order (rows side))) := by
    intro side
    by_cases hside : side = first
    · subst hside
      rw [hothers _ hdiffer (hready side).apart, hextends.refiled.outside, hfile]
      rintro ⟨i, -, heq⟩
      exact (hready side).apart i heq
    · rw [Side.eq_other_of_ne hside, hfile', (filed_of_took htook).eq_fileOf,
        hextends.order_eq, hstage.order_eq, hexpand]
  have hrun : (calls.forM (call targets)).apply (newcomers folder order budgets) t =
      (.ok (), writers', t₄) := by
    rw [hsplit, Build.apply_forM_append hopening hfinish, Build.forM_append_eq,
      Build.apply_bind_of_ok hafter]
    exact Build.apply_bind_of_ok (apply_call_finish hlast)
  refine ⟨t₄, apply_interleaved (h first).hasFolder hrun, fun side => ?_⟩
  have hend := ((hready side).of_refiled hextends.refiled).of_refiled hrefiled'
  exact hend.names.load hend.ending (hfiles side)

/-- **If neither writer is quiet, one of them does not finish.** -/
theorem error_of_not_quiet (hloud : ∀ side, ¬ Quiet (budgets side) calls side) :
    ∃ e, ((interleaved folder order budgets targets calls).apply t).1 = .error e := by
  obtain ⟨given, first, after, writers, t₁, hsplit, -, hother, hopening, hstage, hiff⟩ :=
    stage_of_interleaves h hrows hcalls budgets
  have hruns : ∀ side, 1 ≤ (writers side).byValue.runs := fun side =>
    Nat.one_le_iff_ne_zero.2 fun hzero => hloud side ((hiff side).2 hzero)
  suffices ∃ e, ((calls.forM (call targets)).apply (newcomers folder order budgets) t).1 =
      .error e by
    obtain ⟨e, he⟩ := this
    rw [interleaved_eq (h first).hasFolder]
    exact ⟨e, Disk.apply_bind_of_error (Disk.fst_apply_build he)⟩
  rw [hsplit]
  rcases hfinish : ((writers first).finish (targets first)).apply t₁ with ⟨r, t₂⟩
  cases r with
  | error e =>
    exact ⟨e, Build.fst_apply_forM_append hopening (fst_apply_call_finish (by rw [hfinish]))⟩
  | ok n =>
    -- it has removed the first run, which the other writer does not write again
    have hreceived := hstage.received first
    obtain ⟨hrefiled, -, hmissing⟩ :=
      finish_refiled (hstage.ready first) hreceived.folder_eq hreceived.name_eq hfinish
    have hr := (hstage.ready first.other).of_refiled hrefiled
    obtain ⟨writers', t₃, hafter, hextends⟩ :=
      forM_give_of_received hr (hstage.received first.other) (hother ▸ hrows first.other)
    have hmissing' : t₃.lookup (folder.place ++
        [Sorter.runName (order.fileName ++ "-by-value") 0]) = none := by
      rw [hextends.refiled.outside, hmissing (hruns first)]
      intro hmem
      exact absurd (Sorter.mem_runsFrom.1 hmem) (Nat.not_le.2 (hruns first.other))
    have hlast := finish_of_missing (hr.of_refiled hextends.refiled) hextends.received.folder_eq
      hextends.received.name_eq ((hruns first.other).trans hextends.runs_le) hmissing'
    refine ⟨.io .notFound, ?_⟩
    rw [Build.apply_forM_append hopening (apply_call_finish hfinish)]
    exact Build.fst_apply_forM_append hafter (fst_apply_call_finish hlast)

/-- **Two writers that share a folder succeed exactly if one of them is quiet, and then each writes
the file that it writes alone.** -/
theorem undisturbed_iff_quiet (hapart : (targets .left).place ≠ (targets .right).place)
    (budgets : Side → Nat) :
    ((∃ t', (interleaved folder order budgets targets calls).apply t = (.ok (), t')) ↔
      ∃ side, Quiet (budgets side) calls side) ∧
    ∀ t', (interleaved folder order budgets targets calls).apply t = (.ok (), t') →
      ∀ side, ∃ t₁ content,
        (write folder order (budgets side) (rows side) (targets side)).apply t =
          (.ok (rows side).length, t₁) ∧
        t₁.load (targets side) = .ok content ∧ t'.load (targets side) = .ok content := by
  have hquiet : ∀ t', (interleaved folder order budgets targets calls).apply t = (.ok (), t') →
      ∃ side, Quiet (budgets side) calls side := by
    intro t' hrun
    by_contra hloud
    obtain ⟨e, herror⟩ := error_of_not_quiet h hrows hcalls (not_exists.1 hloud)
    rw [hrun] at herror
    cases herror
  refine ⟨⟨?_, fun hside => ?_⟩, fun t' hrun side => ?_⟩
  · rintro ⟨t', hrun⟩
    exact hquiet t' hrun
  · obtain ⟨t', hrun, -⟩ := files_of_quiet h hrows hcalls hapart hside
    exact ⟨t', hrun⟩
  · obtain ⟨t₂, hrun₂, hfiles⟩ := files_of_quiet h hrows hcalls hapart (hquiet t' hrun)
    obtain ⟨-, rfl⟩ := Prod.mk.inj (hrun.symm.trans hrun₂)
    obtain ⟨t₁, halone, hload⟩ :=
      writes_fileOf (hrows side) t folder (budgets side) (targets side) (h side)
    exact ⟨t₁, _, halone, hload, hfiles side⟩

end

/-- Two writers can sort in the root of the file system and write to the working directory. -/
theorem ready_pick (order : RoleOrder) (side : Side) : Ready FileTree.empty ⟨true, [], .slash⟩ order
    (Side.pick ⟨false, ["x"], .name⟩ ⟨false, ["y"], .name⟩ side) where
  sound := FileTree.sound_empty
  hasFolder := (ready_roots order).hasFolder
  free := (ready_roots order).free
  names := by
    refine ⟨by cases side <;> rfl, fun l hl => ?_⟩
    obtain rfl : l = ["."] := by cases side <;> exact List.mem_singleton.1 hl
    rfl
  ending := by cases side <;> rfl
  old := by
    rw [FileTree.lookup_empty, if_neg]
    · simp
    · cases side <;> decide
  apart i := by cases side <;> simp [Side.pick, Path.place, Place.start, Place.follow]

/-- One writer writes each row out at once; the other one, which it does not disturb, is given a row
before the first one finishes and another one after that. -/
theorem undisturbed_beside_spilling :
    Interleaves (Side.pick [⟨1, 1, 1⟩] [⟨2, 2, 2⟩, ⟨3, 3, 3⟩])
      [(.left, .push ⟨1, 1, 1⟩), (.right, .push ⟨2, 2, 2⟩), (.left, .finish),
        (.right, .push ⟨3, 3, 3⟩), (.right, .finish)] ∧
    ∃ t', (interleaved ⟨true, [], .slash⟩ .spo (Side.pick 1 48)
        (Side.pick ⟨false, ["x"], .name⟩ ⟨false, ["y"], .name⟩)
        [(.left, .push ⟨1, 1, 1⟩), (.right, .push ⟨2, 2, 2⟩), (.left, .finish),
          (.right, .push ⟨3, 3, 3⟩), (.right, .finish)]).apply FileTree.empty = (.ok (), t') ∧
      ∃ t₁ content, (write ⟨true, [], .slash⟩ .spo 48 [⟨2, 2, 2⟩, ⟨3, 3, 3⟩]
          ⟨false, ["y"], .name⟩).apply FileTree.empty = (.ok 2, t₁) ∧
        t₁.load ⟨false, ["y"], .name⟩ = .ok content ∧
        t'.load ⟨false, ["y"], .name⟩ = .ok content := by
  have hrows : ∀ side,
      Ascending (Side.pick [⟨1, 1, 1⟩] [⟨2, 2, 2⟩, ⟨3, 3, 3⟩] side : List Row) := by
    rintro (_ | _)
    · exact List.pairwise_singleton _ _
    · exact List.pairwise_pair.2 (by decide)
  have hcalls : Interleaves (Side.pick [⟨1, 1, 1⟩] [⟨2, 2, 2⟩, ⟨3, 3, 3⟩])
      [(.left, .push ⟨1, 1, 1⟩), (.right, .push ⟨2, 2, 2⟩), (.left, .finish),
        (.right, .push ⟨3, 3, 3⟩), (.right, .finish)] := by
    rintro (_ | _) <;> rfl
  obtain ⟨hiff, hfiles⟩ :=
    undisturbed_iff_quiet (ready_pick .spo) hrows hcalls (by decide) (Side.pick 1 48)
  obtain ⟨t', hrun⟩ := hiff.2 ⟨.right, by unfold Quiet; decide⟩
  exact ⟨hcalls, t', hrun, hfiles t' hrun .right⟩

/-- **Two writers that write their rows out at once disturb each other**, so one of them does not
finish, although nothing is in the way of either. -/
theorem disturbed_by_spilling :
    (∀ side, Ready FileTree.empty ⟨true, [], .slash⟩ .spo
      (Side.pick ⟨false, ["x"], .name⟩ ⟨false, ["y"], .name⟩ side)) ∧
    Interleaves (Side.pick [⟨1, 1, 1⟩] [⟨2, 2, 2⟩])
      [(.left, .push ⟨1, 1, 1⟩), (.right, .push ⟨2, 2, 2⟩), (.left, .finish), (.right, .finish)] ∧
    ∃ e, ((interleaved ⟨true, [], .slash⟩ .spo (fun _ => 1)
      (Side.pick ⟨false, ["x"], .name⟩ ⟨false, ["y"], .name⟩)
      [(.left, .push ⟨1, 1, 1⟩), (.right, .push ⟨2, 2, 2⟩), (.left, .finish),
        (.right, .finish)]).apply FileTree.empty).1 = .error e := by
  have hrows : ∀ side, Ascending (Side.pick [⟨1, 1, 1⟩] [⟨2, 2, 2⟩] side : List Row) := by
    rintro (_ | _) <;> exact List.pairwise_singleton _ _
  have hcalls : Interleaves (Side.pick [⟨1, 1, 1⟩] [⟨2, 2, 2⟩])
      [(.left, .push ⟨1, 1, 1⟩), (.right, .push ⟨2, 2, 2⟩), (.left, .finish),
        (.right, .finish)] := by
    rintro (_ | _) <;> rfl
  refine ⟨ready_pick .spo, hcalls, error_of_not_quiet (ready_pick .spo) hrows hcalls ?_⟩
  rintro (_ | _) <;> unfold Quiet <;> decide

end IndexWriter

end TripleStore
