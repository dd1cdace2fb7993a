import TripleStore.Proofs.Composite.Passes
import TripleStore.Proofs.Sorter.Shared
import TripleStore.TripleIndex.Writer

/-!
# Calls that are refused

Writers and passes are used on after a call that they refuse. `Build.each` makes calls one after
another, whatever each of them answers. A call that is refused leaves builder and tree as they are,
so it leaves no trace: without it the other calls answer the same and everything ends the same
(`leavesNoTrace_of_untouched`). What each builder does in a call is told by its cases, from which it
follows which calls it refuses after which others.
-/

namespace TripleStore

/-! ## Calls one after another -/

namespace Build

variable {ι σ α β γ : Type}

/-- Makes calls one after another, whatever each of them answers: the calls with their answers, and
the builder and the tree in the end. -/
def each (call : ι → Build σ α) : List ι → σ → FileTree → List (ι × Result α) × σ × FileTree
  | [], s, t => ([], s, t)
  | i :: items, s, t =>
    let (r, s, t) := (call i).apply s t
    let (log, s, t) := each call items s t
    ((i, r) :: log, s, t)

/-- The call was not refused. -/
def isTaken (refusal : ι → StoreError) : ι × Result α → Bool
  | (i, .error e) => e != refusal i
  | (_, .ok _) => true

/-- The items of the calls that were not refused. -/
def taken (refusal : ι → StoreError) (log : List (ι × Result α)) : List ι :=
  (log.filter (isTaken refusal)).map Prod.fst

/-- Refused calls make no difference. Without them, all other calls get the answers that they got,
and leave the builder and the tree that were left with them; so finishing answers the same and
leaves the same tree. -/
def LeavesNoTrace (call : ι → Build σ α) (refusal : ι → StoreError) (finish : σ → γ → Disk β) :
    Prop :=
  ∀ items s t log s₁ t₁ log' s₂ t₂, each call items s t = (log, s₁, t₁) →
    each call (taken refusal log) s t = (log', s₂, t₂) →
    log' = log.filter (isTaken refusal) ∧ s₂ = s₁ ∧ t₂ = t₁ ∧
      ∀ target, (finish s₂ target).apply t₂ = (finish s₁ target).apply t₁

variable {call : ι → Build σ α} {refusal : ι → StoreError} {items : List ι} {i : ι} {s s' : σ}
  {t t' : FileTree} {r : Result α} {log : List (ι × Result α)}

theorem isTaken_eq_false : isTaken refusal (i, r) = false ↔ r = .error (refusal i) := by
  cases r with
  | error e => simp [isTaken]
  | ok a => simp [isTaken]

theorem isTaken_error (refusal : ι → StoreError) (i : ι) :
    isTaken refusal (i, (.error (refusal i) : Result α)) = false :=
  isTaken_eq_false.2 rfl

theorem isTaken_of_ne (refusal : ι → StoreError) (i : ι) (h : r ≠ .error (refusal i)) :
    isTaken refusal (i, r) = true :=
  Bool.of_not_eq_false fun hfalse => h (isTaken_eq_false.1 hfalse)

theorem each_cons_of_apply (h : (call i).apply s t = (r, s', t')) :
    each call (i :: items) s t =
      ((i, r) :: (each call items s' t').1, (each call items s' t').2) := by
  rw [each, h]

/-- **What is not touched by a refusal carries no trace of it.** -/
theorem leavesNoTrace_of_untouched (finish : σ → γ → Disk β)
    (h : ∀ i s t s' t', (call i).apply s t = (.error (refusal i), s', t') → s' = s ∧ t' = t) :
    LeavesNoTrace call refusal finish := by
  suffices hkept : ∀ items s t, each call (taken refusal (each call items s t).1) s t =
      ((each call items s t).1.filter (isTaken refusal), (each call items s t).2) by
    intro items s t log s₁ t₁ log' s₂ t₂ hrun hrest
    have hsame := hkept items s t
    rw [hrun, hrest] at hsame
    obtain ⟨rfl, rfl, rfl⟩ : log' = log.filter (isTaken refusal) ∧ s₂ = s₁ ∧ t₂ = t₁ := by
      simpa using hsame
    exact ⟨rfl, rfl, rfl, fun _ => rfl⟩
  intro items
  induction items with
  | nil =>
    intro s t
    rfl
  | cons i items ih =>
    intro s t
    rcases hcall : (call i).apply s t with ⟨r, s₁, t₁⟩
    rw [each_cons_of_apply hcall]
    cases htaken : isTaken refusal (i, r) with
    | false =>
      rw [isTaken_eq_false.1 htaken] at hcall
      obtain ⟨rfl, rfl⟩ := h i s t s₁ t₁ hcall
      simp only [taken, List.filter_cons, htaken, Bool.false_eq_true, if_false]
      exact ih s₁ t₁
    | true =>
      simp only [taken, List.filter_cons, htaken, if_true, List.map_cons]
      rw [each_cons_of_apply hcall, ← taken, ih s₁ t₁]

/-- Without the refused calls the others are answered as they were, and all ends the same. -/
theorem LeavesNoTrace.each_taken {finish : σ → γ → Disk β}
    (h : LeavesNoTrace call refusal finish) (hrun : each call items s t = (log, s', t')) :
    each call (taken refusal log) s t = (log.filter (isTaken refusal), s', t') := by
  rcases hrest : each call (taken refusal log) s t with ⟨log', s₂, t₂⟩
  obtain ⟨rfl, rfl, rfl, -⟩ := h _ _ _ _ _ _ _ _ _ hrun hrest
  rfl

theorem map_fst_each (call : ι → Build σ α) (items : List ι) (s : σ) (t : FileTree) :
    (each call items s t).1.map Prod.fst = items := by
  induction items generalizing s t with
  | nil => rfl
  | cons i items ih =>
    rcases hcall : (call i).apply s t with ⟨r, s₁, t₁⟩
    rw [each_cons_of_apply hcall, List.map_cons, ih]

/-- If it depends on the item alone whether a call is refused, the same items are always taken. -/
theorem taken_eq_filter {p : ι → Bool} (hrun : each call items s t = (log, s', t'))
    (h : ∀ entry ∈ log, isTaken refusal entry = p entry.1) :
    taken refusal log = items.filter p := by
  have hitems := map_fst_each call items s t
  rw [hrun] at hitems
  rw [taken, ← hitems, List.filter_map]
  exact congrArg (List.map Prod.fst) (List.filter_congr h)

/-- **What each call keeps of a log holds after all of them.** -/
theorem of_each {P : List (ι × Result α) → σ → FileTree → Prop}
    (hstep : ∀ log i s t r s' t', i ∈ items → P log s t → (call i).apply s t = (r, s', t') →
      P (log ++ [(i, r)]) s' t')
    (hrun : each call items s t = (log, s', t')) (h : P [] s t) : P log s' t' := by
  suffices hrest : ∀ rest ⊆ items, ∀ before s t, P before s t →
      P (before ++ (each call rest s t).1) (each call rest s t).2.1 (each call rest s t).2.2 by
    have := hrest items (List.Subset.refl items) [] s t h
    rwa [hrun] at this
  intro rest
  induction rest with
  | nil =>
    intro _ before s t h
    rwa [each, List.append_nil]
  | cons i rest ih =>
    intro hsub before s t h
    obtain ⟨hi, hsub⟩ := List.cons_subset.1 hsub
    rcases hcall : (call i).apply s t with ⟨r, s₁, t₁⟩
    rw [each_cons_of_apply hcall]
    have hnext := ih hsub _ s₁ t₁ (hstep before i s t r s₁ t₁ hi h hcall)
    rwa [List.append_assoc, List.singleton_append] at hnext

/-- The items of the calls that succeeded. -/
def answered (log : List (ι × Result α)) : List ι := (log.filter (·.2.isOk)).map Prod.fst

theorem answered_concat :
    answered (log ++ [(i, r)]) = answered log ++ if r.isOk then [i] else [] := by
  rw [answered, List.filter_append, List.map_append]
  cases r <;> rfl

theorem taken_concat : taken refusal (log ++ [(i, r)]) =
    taken refusal log ++ if isTaken refusal (i, r) then [i] else [] := by
  rw [taken, List.filter_append, List.map_append]
  cases h : isTaken refusal (i, r) <;> simp [h, taken]

end Build

open Build

/-! ## Dictionary writers -/

namespace DictionaryWriter

variable {w w' : DictionaryWriter} {strings : List ByteArray} {string : ByteArray}
  {t t' : FileTree} {r : Result Nat}

/-- Offers the next string to a writer and answers its id. -/
def offer (string : ByteArray) : Build DictionaryWriter Nat := do
  let w ← Build.ofResult ((← get).push string)
  set w
  return w.count

/-- A writer accepts the strings that come after all that it took. -/
theorem accepts_iff (h : w.Noted strings) (hlt : StrictlyAscending strings) :
    w.accepts string = true ↔ ∀ s ∈ strings, compare s string = .lt := by
  rw [accepts, h.last]
  rcases List.eq_nil_or_concat strings with rfl | ⟨before, last, rfl⟩
  · simp
  rw [List.concat_eq_append, List.getLast?_concat]
  constructor
  · intro hlast s hs
    have hlast : compare last string = .lt := beq_iff_eq.1 hlast
    rcases List.mem_append.1 hs with hs | hs
    · rw [List.concat_eq_append] at hlt
      exact Std.TransCmp.lt_trans
        ((List.pairwise_append.1 hlt).2.2 s hs last (List.mem_singleton_self _)) hlast
    · rw [List.mem_singleton.1 hs, hlast]
  · intro hall
    exact beq_iff_eq.2 (hall last (by simp))

/-- **A string is taken with the next id, or refused and forgotten.** -/
theorem offer_cases (hrun : (offer string).apply w t = (r, w', t')) : t' = t ∧
    (w.accepts string = true ∧ w.push string = .ok w' ∧ r = .ok w'.count ∨
      w.accepts string = false ∧ w' = w ∧ r = .error (.invalid .stringsNotAscending)) := by
  rw [offer, apply_bind_of_ok (apply_get w t)] at hrun
  cases haccepts : w.accepts string with
  | true =>
    have hpush : w.push string = .ok _ := if_pos haccepts
    rw [hpush] at hrun ⊢
    obtain ⟨rfl, hrest⟩ := Prod.mk.inj (show (Except.ok _, _, t) = (r, w', t') from hrun)
    obtain ⟨rfl, rfl⟩ := Prod.mk.inj hrest
    exact ⟨rfl, .inl ⟨rfl, rfl, rfl⟩⟩
  | false =>
    have hpush : w.push string = .error (.invalid .stringsNotAscending) :=
      if_neg (by rw [haccepts]; exact Bool.false_ne_true)
    rw [hpush] at hrun
    obtain ⟨rfl, hrest⟩ := Prod.mk.inj (show (Except.error _, w, t) = (r, w', t') from hrun)
    obtain ⟨rfl, rfl⟩ := Prod.mk.inj hrest
    exact ⟨rfl, .inr ⟨rfl, rfl, rfl⟩⟩

/-- **A writer holds the strings that it answered with an id.** -/
theorem noted_of_each {flags aux : UInt16} {log : List (ByteArray × Result Nat)}
    (hrun : each offer strings (create flags aux) t = (log, w, t')) :
    w.Noted (answered log) ∧ StrictlyAscending (answered log) := by
  refine of_each (P := fun log w _ => w.Noted (answered log) ∧ StrictlyAscending (answered log))
    ?_ hrun ⟨noted_create flags aux, List.Pairwise.nil⟩
  intro log string w t r w' t' _ h hcall
  rw [answered_concat]
  obtain ⟨-, ⟨haccepts, hpush, rfl⟩ | ⟨-, rfl, rfl⟩⟩ := offer_cases hcall
  · have hlt := (accepts_iff h.1 h.2).1 haccepts
    obtain ⟨w₁, hpush₁, hnoted, -, -⟩ := push_of_noted h.1 hlt
    obtain rfl : w' = w₁ := Except.ok.inj (hpush.symm.trans hpush₁)
    refine ⟨hnoted, List.pairwise_append.2 ⟨h.2, List.pairwise_singleton _ _, ?_⟩⟩
    intro s hs last hlast
    obtain rfl := List.mem_singleton.1 hlast
    exact hlt s hs
  · simpa [Except.isOk, Except.toBool] using h

/-- **A writer accepts exactly the strings that come strictly after all that it accepted**, and
numbers these one after another. -/
theorem answer_of_each {flags aux : UInt16} {log : List (ByteArray × Result Nat)}
    (hrun : each offer strings (create flags aux) t = (log, w, t')) (string : ByteArray) :
    ((offer string).apply w t').1 =
      if ∀ s ∈ answered log, compare s string = .lt then .ok ((answered log).length + 1)
      else .error (.invalid .stringsNotAscending) := by
  obtain ⟨hnoted, hlt⟩ := noted_of_each hrun
  rcases hcall : (offer string).apply w t' with ⟨r, w₁, t₁⟩
  obtain ⟨-, ⟨haccepts, hpush, rfl⟩ | ⟨hrefuses, -, rfl⟩⟩ := offer_cases hcall
  · have hall := (accepts_iff hnoted hlt).1 haccepts
    obtain ⟨w₂, hpush₂, hnoted₂, -, -⟩ := push_of_noted hnoted hall
    obtain rfl : w₁ = w₂ := Except.ok.inj (hpush.symm.trans hpush₂)
    rw [if_pos hall, count_of_noted hnoted₂, List.length_append, List.length_singleton]
  · rw [if_neg]
    intro hall
    rw [(accepts_iff hnoted hlt).2 hall] at hrefuses
    cases hrefuses

end DictionaryWriter

/-! ## Index writers -/

/-- A sorter fails only with the tree. -/
theorem Sorter.io_of_push {α : Type} [Ord α] [Record α] {record : α} {s s' : Sorter α}
    {t t' : FileTree} {e : StoreError} (hrun : (push record).apply s t = (.error e, s', t')) :
    ∃ fault, e = .io fault := by
  rcases push_cases hrun with ⟨-, hanswer, -⟩ | ⟨-, hanswer, -⟩ | ⟨-, ⟨fault, hanswer⟩, -⟩
  · cases hanswer
  · cases hanswer
  · exact ⟨fault, Except.error.inj hanswer⟩

namespace IndexWriter

variable {w w' : IndexWriter} {rows : List Row} {row : Row} {t t' : FileTree} {r : Result Unit}

/-- A writer accepts the rows that do not come before any that it took. -/
theorem accepts_iff (hlast : w.last = rows.getLast?) (hrows : Ascending rows) :
    w.accepts row = true ↔ ∀ s ∈ rows, (compare s row).isLE := by
  rw [accepts, hlast]
  rcases List.eq_nil_or_concat rows with rfl | ⟨before, last, rfl⟩
  · simp
  rw [List.concat_eq_append, List.getLast?_concat]
  constructor
  · intro hle s hs
    rcases List.mem_append.1 hs with hs | hs
    · rw [List.concat_eq_append] at hrows
      exact Std.TransCmp.isLE_trans
        ((List.pairwise_append.1 hrows).2.2 s hs last (List.mem_singleton_self _)) hle
    · rw [List.mem_singleton.1 hs]
      exact hle
  · intro hall
    exact hall last (by simp)

/-- **A row is taken, or refused and forgotten**, or its run could not be written; then it does not
count as the last one. -/
theorem push_cases (hrun : (push row).apply w t = (r, w', t')) :
    w.accepts row = false ∧ r = .error (.invalid .rowsNotSorted) ∧ w' = w ∧ t' = t ∨
    w.accepts row = true ∧ (r = .ok () ∧ w'.last = some row ∨
      (∃ fault, r = .error (.io fault)) ∧ w'.last = w.last) := by
  rw [push, apply_bind_of_ok (apply_get w t)] at hrun
  cases haccepts : w.accepts row with
  | false =>
    left
    rw [apply_require_of_neg (by rw [haccepts]; exact Bool.false_ne_true)] at hrun
    obtain ⟨rfl, hrest⟩ := Prod.mk.inj hrun
    obtain ⟨rfl, rfl⟩ := Prod.mk.inj hrest
    exact ⟨rfl, rfl, rfl, rfl⟩
  | true =>
    right
    rw [apply_require_of_pos haccepts, apply_bind_of_ok (apply_modify _ w t)] at hrun
    refine ⟨rfl, ?_⟩
    rcases bind_cases hrun with ⟨e, rfl, hfail⟩ | ⟨_, w₁, t₁, -, hsettle⟩
    · rw [apply_part] at hfail
      obtain ⟨herror, hrest⟩ := Prod.mk.inj hfail
      obtain ⟨rfl, -⟩ := Prod.mk.inj hrest
      obtain ⟨fault, rfl⟩ := Sorter.io_of_push (Prod.ext herror rfl)
      exact .inr ⟨⟨fault, rfl⟩, rfl⟩
    · obtain ⟨rfl, hrest⟩ := Prod.mk.inj hsettle
      obtain ⟨rfl, -⟩ := Prod.mk.inj hrest
      exact .inl ⟨rfl, rfl⟩

/-- **The last row of a writer is the last one that it answered.** -/
theorem last_of_each {log : List (Row × Result Unit)} (hfresh : w.last = none)
    (hrun : each push rows w t = (log, w', t')) :
    w'.last = (answered log).getLast? ∧ Ascending (answered log) := by
  refine of_each (P := fun log w _ => w.last = (answered log).getLast? ∧ Ascending (answered log))
    ?_ hrun ⟨hfresh, List.Pairwise.nil⟩
  intro log row w t r w' t' _ h hcall
  rw [answered_concat]
  rcases push_cases hcall with
    ⟨-, rfl, rfl, -⟩ | ⟨haccepts, ⟨rfl, hlast⟩ | ⟨⟨fault, rfl⟩, hlast⟩⟩
  · simpa [Except.isOk, Except.toBool] using h
  · refine ⟨by rw [hlast]; simp [Except.isOk, Except.toBool], ?_⟩
    refine List.pairwise_append.2 ⟨h.2, List.pairwise_singleton _ _, ?_⟩
    intro s hs last hmem
    obtain rfl := List.mem_singleton.1 hmem
    exact (accepts_iff h.1 h.2).1 haccepts s hs
  · rw [hlast]
    simpa [Except.isOk, Except.toBool] using h

/-- **A writer refuses exactly the rows that come before one that it answered.** -/
theorem refuses_iff_of_each {log : List (Row × Result Unit)} (hfresh : w.last = none)
    (hrun : each push rows w t = (log, w', t')) (row : Row) :
    ((push row).apply w' t').1 = .error (.invalid .rowsNotSorted) ↔
      ∃ s ∈ answered log, compare row s = .lt := by
  obtain ⟨hlast, hrows⟩ := last_of_each hfresh hrun
  have hrefused : w'.accepts row = false ↔ ∃ s ∈ answered log, compare row s = .lt := by
    rw [← Bool.not_eq_true, accepts_iff hlast hrows]
    simp only [not_forall, exists_prop]
    refine exists_congr fun s => and_congr_right fun _ => ?_
    rw [← Std.OrientedCmp.gt_iff_lt, Ordering.isLE_iff_ne_gt, not_not]
  rw [← hrefused]
  rcases hcall : (push row).apply w' t' with ⟨r, w₁, t₁⟩
  rcases push_cases hcall with
    ⟨hrefuses, rfl, -, -⟩ | ⟨haccepts, ⟨rfl, -⟩ | ⟨⟨fault, rfl⟩, -⟩⟩
  · simp [hrefuses]
  · simp [haccepts]
  · simp [haccepts]

end IndexWriter

/-! ## The first pass -/

namespace VocabularyBuilder

variable {b b' : VocabularyBuilder} {terms : List String} {term : String} {t t' : FileTree}
  {r : Result Unit}

/-- **A term is taken, or refused and forgotten** because it looks coded. -/
theorem visit_cases (hrun : (visit term).apply b t = (r, b', t')) :
    Code.looksCoded term.toUTF8 = true ∧ r = .error (.invalid .codedTerm) ∧ b' = b ∧ t' = t ∨
    Code.looksCoded term.toUTF8 = false ∧ r ≠ .error (.invalid .codedTerm) ∧
      b'.fingerprint = b.fingerprint ∧ b'.seen = b.seen.insert (b.fingerprint term) ∧
      b'.visits = b.visits + 1 := by
  cases hcoded : Code.looksCoded term.toUTF8 with
  | true =>
    rw [visit_of_looksCoded hcoded] at hrun
    obtain ⟨rfl, hrest⟩ := Prod.mk.inj hrun
    obtain ⟨rfl, rfl⟩ := Prod.mk.inj hrest
    exact .inl ⟨rfl, rfl, rfl, rfl⟩
  | false =>
    right
    rw [visit, apply_require_of_pos hcoded, apply_bind_of_ok (apply_get b t),
      apply_bind_of_ok (apply_modify _ b t)] at hrun
    refine ⟨rfl, ?_⟩
    split at hrun
    · obtain ⟨rfl, hrest⟩ := Prod.mk.inj hrun
      obtain ⟨rfl, -⟩ := Prod.mk.inj hrest
      exact ⟨by simp, rfl, rfl, rfl⟩
    split at hrun
    · obtain ⟨rfl, hrest⟩ := Prod.mk.inj hrun
      obtain ⟨rfl, -⟩ := Prod.mk.inj hrest
      exact ⟨by simp, rfl, rfl, rfl⟩
    · rw [propose, apply_part] at hrun
      obtain ⟨hanswer, hrest⟩ := Prod.mk.inj hrun
      obtain ⟨rfl, -⟩ := Prod.mk.inj hrest
      refine ⟨?_, rfl, rfl, rfl⟩
      rintro rfl
      obtain ⟨fault, hfault⟩ := Sorter.io_of_push (Prod.ext hanswer rfl)
      cases hfault

/-- A first pass after visits: it knows the terms that were taken, and counts them. -/
structure Told (b : VocabularyBuilder) (log : List (String × Result Unit))
    (b' : VocabularyBuilder) : Prop where
  answers : ∀ entry ∈ log, isTaken (fun _ => .invalid .codedTerm) entry =
    !Code.looksCoded entry.1.toUTF8
  fingerprint_eq : b'.fingerprint = b.fingerprint
  visits : b'.visits = b.visits + (taken (fun _ => .invalid .codedTerm) log).length
  seen : ∀ h, b'.seen.contains h = true ↔ b.seen.contains h = true ∨
    h ∈ (taken (fun _ => .invalid .codedTerm) log).map b.fingerprint

theorem Told.visit {b₁ : VocabularyBuilder} {log : List (String × Result Unit)} (h : b.Told log b₁)
    (hcall : (visit term).apply b₁ t = (r, b', t')) : b.Told (log ++ [(term, r)]) b' := by
  rcases visit_cases hcall with
    ⟨hcoded, rfl, rfl, -⟩ | ⟨hplain, hr, hfingerprint, hseen, hvisits⟩
  · have hlast := isTaken_error (α := Unit) (fun _ => .invalid .codedTerm) term
    refine ⟨?_, h.fingerprint_eq, ?_, ?_⟩
    · exact List.forall_mem_append.2
        ⟨h.answers, List.forall_mem_singleton.2 (by rw [hlast, hcoded]; rfl)⟩
    · simpa [taken_concat, hlast] using h.visits
    · simpa [taken_concat, hlast] using h.seen
  · have hlast := isTaken_of_ne (fun _ => .invalid .codedTerm) term hr
    refine ⟨?_, hfingerprint.trans h.fingerprint_eq, ?_, fun k => ?_⟩
    · exact List.forall_mem_append.2
        ⟨h.answers, List.forall_mem_singleton.2 (by rw [hlast, hplain]; rfl)⟩
    · rw [hvisits, h.visits, taken_concat, if_pos hlast, List.length_append,
        List.length_singleton, Nat.add_assoc]
    · rw [hseen, Std.TreeSet.contains_insert, Bool.or_eq_true, h.seen, beq_iff_eq,
        Std.LawfulEqOrd.compare_eq_iff_eq, taken_concat, if_pos hlast, h.fingerprint_eq]
      simp only [List.map_append, List.mem_append, List.map_singleton, List.mem_singleton,
        eq_comm (a := k)]
      tauto

/-- **The first pass takes exactly the terms that do not look coded**, knows their fingerprints from
then on and counts them. -/
theorem taken_of_each {log : List (String × Result Unit)}
    (hrun : each visit terms b t = (log, b', t')) :
    taken (fun _ => .invalid .codedTerm) log = terms.filter (!Code.looksCoded ·.toUTF8) ∧
      b.Told log b' := by
  have htold : b.Told log b' := of_each (P := fun log b' _ => b.Told log b')
    (fun _ _ _ _ _ _ _ _ h hcall => h.visit hcall) hrun ⟨by simp, rfl, rfl, by simp [taken]⟩
  exact ⟨taken_eq_filter hrun htold.answers, htold⟩

end VocabularyBuilder

/-! ## The second pass -/

section

variable {α β : Type} {x : Result α} {f : α → Result β} {e e' : StoreError}

theorem ok_ne_error {a : α} : (.ok a : Result α) ≠ .error e := by
  intro h
  cases h

theorem bind_ne_error (hx : x ≠ .error e) (hf : ∀ a, f a ≠ .error e) : (x >>= f) ≠ .error e := by
  cases x with
  | error e' =>
    intro h
    obtain rfl : e' = e := Except.error.inj h
    exact hx rfl
  | ok a => exact hf a

theorem require_ne_error {c : Prop} [Decidable c] (h : e' ≠ e) : require c e' ≠ .error e := by
  unfold require
  split
  · exact ok_ne_error
  · intro heq
    exact h (Except.error.inj heq)

theorem orFail_ne_error {o : Option α} (h : e' ≠ e) : orFail o e' ≠ .error e := by
  cases o with
  | none =>
    intro heq
    exact h (Except.error.inj heq)
  | some a => exact ok_ne_error

end

/-- Looking up a string does not fail because of a term. -/
theorem Dictionary.find_ne_unseenTerm (d : Dictionary) (key : Key) (term : String) :
    d.find key ≠ .error (.unseenTerm term) := by
  have hoffset : ∀ i, d.offsets.offset d.data i ≠ .error (.unseenTerm term) := fun i =>
    bind_ne_error (require_ne_error (by simp)) fun _ =>
      bind_ne_error (require_ne_error (by simp)) fun _ => orFail_ne_error (by simp)
  have hstring : ∀ i, d.string i ≠ .error (.unseenTerm term) := fun i =>
    bind_ne_error (bind_ne_error (hoffset i) fun _ => bind_ne_error (hoffset (i + 1)) fun _ =>
      bind_ne_error (require_ne_error (by simp)) fun _ => ok_ne_error) fun _ => ok_ne_error
  suffices hbetween : ∀ lo hi, d.findBetween key lo hi ≠ .error (.unseenTerm term) from
    hbetween 0 d.count
  intro lo hi
  fun_induction d.findBetween key lo hi with
  | case1 lo hi hlt mid e he =>
    intro heq
    obtain rfl := Except.error.inj heq
    exact hstring mid he
  | case2 lo hi hlt mid stored hs hc ih => exact ih
  | case3 lo hi hlt mid stored hs hc ih => exact ih
  | case4 lo hi hlt mid stored hs hc => exact ok_ne_error
  | case5 lo hi hlt => exact ok_ne_error

namespace CompositeBuilder

variable {b b' : CompositeBuilder} {terms : List String} {term : String} {t t' : FileTree}
  {r : Result Unit}

theorem entryOf_ne_unseenTerm (shared : Dictionary) (s : Split) (term : String) :
    entryOf shared s ≠ .error (.unseenTerm term) := by
  cases s with
  | whole whole => exact ok_ne_error
  | parted edge part rest =>
    refine bind_ne_error (shared.find_ne_unseenTerm _ term) ?_
    intro id
    split
    · exact ok_ne_error
    · exact bind_ne_error (bind_ne_error (orFail_ne_error (by simp)) fun _ =>
        bind_ne_error (require_ne_error (by simp)) fun _ => ok_ne_error) fun _ => ok_ne_error

/-- **A term is taken and counted, or refused and forgotten** because the first pass did not see
it. -/
theorem visit_cases (hrun : (visit term).apply b t = (r, b', t')) :
    b.seen.contains (b.fingerprint term) = false ∧ r = .error (.unseenTerm term) ∧ b' = b ∧
      t' = t ∨
    b.seen.contains (b.fingerprint term) = true ∧ r ≠ .error (.unseenTerm term) ∧
      b'.fingerprint = b.fingerprint ∧ b'.seen = b.seen ∧ b'.expected = b.expected ∧
      b'.workspace = b.workspace ∧ b'.visits = b.visits + 1 := by
  rw [visit, apply_bind_of_ok (apply_get b t)] at hrun
  cases hseen : b.seen.contains (b.fingerprint term) with
  | false =>
    rw [apply_require_of_neg (by rw [hseen]; exact Bool.false_ne_true)] at hrun
    obtain ⟨rfl, hrest⟩ := Prod.mk.inj hrun
    obtain ⟨rfl, rfl⟩ := Prod.mk.inj hrest
    exact .inl ⟨rfl, rfl, rfl, rfl⟩
  | true =>
    rw [apply_require_of_pos hseen, apply_bind_of_ok (apply_modify _ b t)] at hrun
    refine .inr ⟨rfl, ?_⟩
    rcases bind_cases hrun with ⟨e, rfl, hfail⟩ | ⟨entry, b₁, t₁, hentry, hstage⟩
    · obtain ⟨herror, hrest⟩ := Prod.mk.inj hfail
      obtain ⟨rfl, -⟩ := Prod.mk.inj hrest
      refine ⟨?_, rfl, rfl, rfl, rfl, rfl⟩
      intro heq
      obtain rfl := Except.error.inj heq
      exact entryOf_ne_unseenTerm _ _ term herror
    · obtain ⟨-, hrest⟩ := Prod.mk.inj hentry
      obtain ⟨rfl, rfl⟩ := Prod.mk.inj hrest
      rw [stage, apply_part] at hstage
      obtain ⟨hanswer, hrest⟩ := Prod.mk.inj hstage
      obtain ⟨rfl, -⟩ := Prod.mk.inj hrest
      refine ⟨?_, rfl, rfl, rfl, rfl, rfl⟩
      rintro rfl
      obtain ⟨fault, hfault⟩ := Sorter.io_of_push (Prod.ext hanswer rfl)
      cases hfault

/-- A second pass after visits: it knows what it knew, and counts the terms that were taken. -/
structure Told (b : CompositeBuilder) (log : List (String × Result Unit)) (b' : CompositeBuilder) :
    Prop where
  answers : ∀ entry ∈ log, isTaken .unseenTerm entry = b.seen.contains (b.fingerprint entry.1)
  fingerprint_eq : b'.fingerprint = b.fingerprint
  seen : b'.seen = b.seen
  expected : b'.expected = b.expected
  workspace : b'.workspace = b.workspace
  visits : b'.visits = b.visits + (taken .unseenTerm log).length

theorem Told.visit {b₁ : CompositeBuilder} {log : List (String × Result Unit)} (h : b.Told log b₁)
    (hcall : (visit term).apply b₁ t = (r, b', t')) : b.Told (log ++ [(term, r)]) b' := by
  rcases visit_cases hcall with ⟨hunseen, rfl, rfl, -⟩ |
    ⟨hknown, hr, hfingerprint, hseen, hexpected, hworkspace, hvisits⟩
  · have hlast := isTaken_error (α := Unit) .unseenTerm term
    rw [h.seen, h.fingerprint_eq] at hunseen
    refine ⟨?_, h.fingerprint_eq, h.seen, h.expected, h.workspace, ?_⟩
    · exact List.forall_mem_append.2
        ⟨h.answers, List.forall_mem_singleton.2 (hlast.trans hunseen.symm)⟩
    · simpa [taken_concat, hlast] using h.visits
  · have hlast := isTaken_of_ne .unseenTerm term hr
    rw [h.seen, h.fingerprint_eq] at hknown
    refine ⟨?_, hfingerprint.trans h.fingerprint_eq, hseen.trans h.seen,
      hexpected.trans h.expected, hworkspace.trans h.workspace, ?_⟩
    · exact List.forall_mem_append.2
        ⟨h.answers, List.forall_mem_singleton.2 (hlast.trans hknown.symm)⟩
    · rw [hvisits, h.visits, taken_concat, if_pos hlast, List.length_append,
        List.length_singleton, Nat.add_assoc]

/-- **The second pass takes exactly the terms that the first pass saw**, and counts no others. -/
theorem taken_of_each {log : List (String × Result Unit)}
    (hrun : each visit terms b t = (log, b', t')) :
    taken .unseenTerm log = terms.filter (b.seen.contains <| b.fingerprint ·) ∧ b.Told log b' := by
  have htold : b.Told log b' := of_each (P := fun log b' _ => b.Told log b')
    (fun _ _ _ _ _ _ _ _ h hcall => h.visit hcall) hrun ⟨by simp, rfl, rfl, rfl, rfl, rfl⟩
  exact ⟨taken_eq_filter hrun htold.answers, htold⟩

end CompositeBuilder

/-! ## All builders -/

/-- **Refused calls leave no trace.** A string that does not come after the last one, a row that
comes before the last one, a term that looks coded and a term that the first pass did not see are
refused, anywhere between other calls; without these calls the others answer the same, the builders
and trees are the same, and so is what finishing writes and answers. So a dictionary writer accepts
exactly the strings that come after all that it accepted, an index writer refuses exactly the rows
that come before one that it answered, and each pass takes and counts exactly the terms that it does
not refuse. -/
theorem refusals_leave_no_trace :
    (LeavesNoTrace DictionaryWriter.offer (fun _ => .invalid .stringsNotAscending)
        DictionaryWriter.finish ∧
      ∀ flags aux strings t log w t',
        each DictionaryWriter.offer strings (.create flags aux) t = (log, w, t') →
        ∀ string, ((DictionaryWriter.offer string).apply w t').1 =
          if ∀ s ∈ answered log, compare s string = .lt then .ok ((answered log).length + 1)
          else .error (.invalid .stringsNotAscending)) ∧
    (LeavesNoTrace IndexWriter.push (fun _ => .invalid .rowsNotSorted) IndexWriter.finish ∧
      ∀ folder order budget t₀ w t rows log w' t',
        (IndexWriter.create folder order budget).apply t₀ = (.ok w, t) →
        each IndexWriter.push rows w t = (log, w', t') →
        ∀ row, ((IndexWriter.push row).apply w' t').1 = .error (.invalid .rowsNotSorted) ↔
          ∃ s ∈ answered log, compare row s = .lt) ∧
    (LeavesNoTrace VocabularyBuilder.visit (fun _ => .invalid .codedTerm)
        (fun b (_ : Unit) => b.freeze) ∧
      ∀ terms b t log b' t', each VocabularyBuilder.visit terms b t = (log, b', t') →
        taken (fun _ => .invalid .codedTerm) log = terms.filter (!Code.looksCoded ·.toUTF8) ∧
        b'.visits = b.visits + (taken (fun _ => .invalid .codedTerm) log).length) ∧
    LeavesNoTrace CompositeBuilder.visit .unseenTerm CompositeBuilder.write ∧
      ∀ terms b t log b' t', each CompositeBuilder.visit terms b t = (log, b', t') →
        taken .unseenTerm log = terms.filter (b.seen.contains <| b.fingerprint ·) ∧
        b'.visits = b.visits + (taken .unseenTerm log).length ∧
        ∀ target, (b.visits + (taken .unseenTerm log).length = b.expected →
            b'.write target = b'.workspace.consume
              (Disk.staged target fun folder => b'.writeFiles folder.path)) ∧
          (b.visits + (taken .unseenTerm log).length ≠ b.expected →
            ((b'.write target).apply t').1 = .error (.invalid .visitCount)) := by
  refine ⟨⟨leavesNoTrace_of_untouched _ ?_, ?_⟩, ⟨leavesNoTrace_of_untouched _ ?_, ?_⟩,
    ⟨leavesNoTrace_of_untouched _ ?_, ?_⟩, leavesNoTrace_of_untouched _ ?_, ?_⟩
  · intro string w t w' t' hrun
    obtain ⟨rfl, ⟨-, -, hanswer⟩ | ⟨-, rfl, -⟩⟩ := DictionaryWriter.offer_cases hrun
    · cases hanswer
    · exact ⟨rfl, rfl⟩
  · intro flags aux strings t log w t' hrun string
    exact DictionaryWriter.answer_of_each hrun string
  · intro row w t w' t' hrun
    rcases IndexWriter.push_cases hrun with
      ⟨-, -, rfl, rfl⟩ | ⟨-, ⟨hanswer, -⟩ | ⟨⟨fault, hanswer⟩, -⟩⟩
    · exact ⟨rfl, rfl⟩
    · cases hanswer
    · cases hanswer
  · intro folder order budget t₀ w t rows log w' t' hcreate hrun row
    obtain ⟨_, t₁, -, hlast⟩ := Disk.apply_bind_eq_ok.1 hcreate
    obtain rfl := Except.ok.inj (Prod.mk.inj hlast).1
    exact IndexWriter.refuses_iff_of_each rfl hrun row
  · intro term b t b' t' hrun
    rcases VocabularyBuilder.visit_cases hrun with ⟨-, -, rfl, rfl⟩ | ⟨-, hanswer, -⟩
    · exact ⟨rfl, rfl⟩
    · exact absurd rfl hanswer
  · intro terms b t log b' t' hrun
    obtain ⟨htaken, htold⟩ := VocabularyBuilder.taken_of_each hrun
    exact ⟨htaken, htold.visits⟩
  · intro term b t b' t' hrun
    rcases CompositeBuilder.visit_cases hrun with ⟨-, -, rfl, rfl⟩ | ⟨-, hanswer, -⟩
    · exact ⟨rfl, rfl⟩
    · exact absurd rfl hanswer
  · intro terms b t log b' t' hrun
    obtain ⟨htaken, htold⟩ := CompositeBuilder.taken_of_each hrun
    rw [← htold.visits, ← htold.expected]
    refine ⟨htaken, rfl, ?_⟩
    intro target
    refine ⟨?_, fun hne => CompositeBuilder.write_of_visits_ne hne target⟩
    intro heq
    rw [CompositeBuilder.write, require, if_pos heq]
    rfl

/-- A first pass that has visited nothing. -/
def firstPassAtStart : VocabularyBuilder :=
  ⟨.default, mixedFingerprint, ⟨⟨true, ["tmp", "composite-0"], .name⟩⟩,
    .create ⟨true, ["tmp", "composite-0"], .name⟩ "candidates" 1024, ∅, 0⟩

/-- A second pass that has visited nothing yet, and expects two terms that share nothing. -/
def secondPassAtStart : CompositeBuilder where
  splitter := ⟨.both, 4⟩
  fingerprint := mixedFingerprint
  workspace := ⟨⟨true, ["tmp", "composite-0"], .name⟩⟩
  shared := ⟨.empty, ⟨⟨0, 0, 0, 0, 0, 0, 0, 0, 0⟩, []⟩, ⟨0, 0, .two, none⟩, default⟩
  entries := .create ⟨true, ["tmp", "composite-0"], .name⟩ "strings" 1024
  seen := Std.TreeSet.ofList [mixedFingerprint "<a:b>", mixedFingerprint "<a:c>"]
  expected := 2
  visits := 0

/-- A string and a row that come too late are refused, a term that looks coded, and one that was
not seen, each between two that are taken. -/
theorem refusals_leave_no_trace_between :
    (∃ log w t, each DictionaryWriter.offer [⟨#[1]⟩, ⟨#[0]⟩, ⟨#[2]⟩] (.create 0 0) FileTree.empty =
        (log, w, t) ∧ answered log = [⟨#[1]⟩, ⟨#[2]⟩] ∧
      each DictionaryWriter.offer [⟨#[1]⟩, ⟨#[2]⟩] (.create 0 0) FileTree.empty =
        ([(⟨#[1]⟩, .ok 1), (⟨#[2]⟩, .ok 2)], w, t) ∧
      ((DictionaryWriter.offer ⟨#[0]⟩).apply w t).1 = .error (.invalid .stringsNotAscending)) ∧
    (∃ w log w' t, (IndexWriter.create ⟨false, [], .dot⟩ .spo 1024).apply FileTree.empty =
        (.ok w, FileTree.empty) ∧
      each IndexWriter.push [⟨1, 1, 1⟩, ⟨0, 5, 5⟩, ⟨2, 2, 2⟩] w FileTree.empty = (log, w', t) ∧
      answered log = [⟨1, 1, 1⟩, ⟨2, 2, 2⟩] ∧
      each IndexWriter.push [⟨1, 1, 1⟩, ⟨2, 2, 2⟩] w FileTree.empty =
        ([(⟨1, 1, 1⟩, .ok ()), (⟨2, 2, 2⟩, .ok ())], w', t) ∧
      ((IndexWriter.push ⟨0, 5, 5⟩).apply w' t).1 = .error (.invalid .rowsNotSorted)) ∧
    (∃ log b t, each VocabularyBuilder.visit ["<a:b>", "AAAA.", "<a:c>"] firstPassAtStart
        FileTree.empty = (log, b, t) ∧
      each VocabularyBuilder.visit ["<a:b>", "<a:c>"] firstPassAtStart FileTree.empty =
        ([("<a:b>", .ok ()), ("<a:c>", .ok ())], b, t) ∧ b.visits = 2) ∧
    ∃ log b t, each CompositeBuilder.visit ["<a:b>", "<a:d>", "<a:c>"] secondPassAtStart
        FileTree.empty = (log, b, t) ∧
      each CompositeBuilder.visit ["<a:b>", "<a:c>"] secondPassAtStart FileTree.empty =
        ([("<a:b>", .ok ()), ("<a:c>", .ok ())], b, t) ∧ b.visits = 2 ∧
      ∀ target, b.write target =
        b.workspace.consume (Disk.staged target fun folder => b.writeFiles folder.path) := by
  refine ⟨?_, ?_, ?_, ?_⟩
  · have hlog : (each DictionaryWriter.offer [⟨#[1]⟩, ⟨#[0]⟩, ⟨#[2]⟩] (.create 0 0)
        FileTree.empty).1 = [(⟨#[1]⟩, .ok 1), (⟨#[0]⟩, .error (.invalid .stringsNotAscending)),
          (⟨#[2]⟩, .ok 2)] := by
      decide +kernel
    rcases hrun : each DictionaryWriter.offer [⟨#[1]⟩, ⟨#[0]⟩, ⟨#[2]⟩] (.create 0 0)
      FileTree.empty with ⟨log, w, t⟩
    obtain rfl : log = _ := (congrArg Prod.fst hrun).symm.trans hlog
    have hanswer := refusals_leave_no_trace.1.2 0 0 _ _ _ w t hrun ⟨#[0]⟩
    rw [if_neg] at hanswer
    · exact ⟨_, w, t, rfl, rfl, refusals_leave_no_trace.1.1.each_taken hrun, hanswer⟩
    · intro hall
      exact absurd (hall ⟨#[2]⟩ (by simp [answered, Except.isOk, Except.toBool]))
        (by decide +kernel)
  · obtain ⟨w, hcreate⟩ : ∃ w, (IndexWriter.create ⟨false, [], .dot⟩ .spo 1024).apply
        FileTree.empty = (.ok w, FileTree.empty) := ⟨_, rfl⟩
    have hlog : (each IndexWriter.push [⟨1, 1, 1⟩, ⟨0, 5, 5⟩, ⟨2, 2, 2⟩] w FileTree.empty).1 =
        [(⟨1, 1, 1⟩, .ok ()), (⟨0, 5, 5⟩, .error (.invalid .rowsNotSorted)),
          (⟨2, 2, 2⟩, .ok ())] := by
      obtain rfl := Except.ok.inj (congrArg Prod.fst hcreate)
      decide +kernel
    rcases hrun : each IndexWriter.push [⟨1, 1, 1⟩, ⟨0, 5, 5⟩, ⟨2, 2, 2⟩] w FileTree.empty with
      ⟨log, w', t⟩
    obtain rfl : log = _ := (congrArg Prod.fst hrun).symm.trans hlog
    have hrefused := refusals_leave_no_trace.2.1.2 _ _ _ _ w _ _ _ w' t hcreate hrun ⟨0, 5, 5⟩
    exact ⟨w, _, w', t, hcreate, hrun, rfl, refusals_leave_no_trace.2.1.1.each_taken hrun,
      hrefused.2 ⟨⟨1, 1, 1⟩, by simp [answered, Except.isOk, Except.toBool], by decide⟩⟩
  · have hlog : (each VocabularyBuilder.visit ["<a:b>", "AAAA.", "<a:c>"] firstPassAtStart
        FileTree.empty).1 = [("<a:b>", .ok ()), ("AAAA.", .error (.invalid .codedTerm)),
          ("<a:c>", .ok ())] := by
      decide +kernel
    rcases hrun : each VocabularyBuilder.visit ["<a:b>", "AAAA.", "<a:c>"] firstPassAtStart
      FileTree.empty with ⟨log, b, t⟩
    obtain rfl : log = _ := (congrArg Prod.fst hrun).symm.trans hlog
    obtain ⟨-, hvisits⟩ := refusals_leave_no_trace.2.2.1.2 _ _ _ _ b t hrun
    exact ⟨_, b, t, rfl, refusals_leave_no_trace.2.2.1.1.each_taken hrun, hvisits⟩
  · have hlog : (each CompositeBuilder.visit ["<a:b>", "<a:d>", "<a:c>"] secondPassAtStart
        FileTree.empty).1 = [("<a:b>", .ok ()), ("<a:d>", .error (.unseenTerm "<a:d>")),
          ("<a:c>", .ok ())] := by
      decide +kernel
    rcases hrun : each CompositeBuilder.visit ["<a:b>", "<a:d>", "<a:c>"] secondPassAtStart
      FileTree.empty with ⟨log, b, t⟩
    obtain rfl : log = _ := (congrArg Prod.fst hrun).symm.trans hlog
    obtain ⟨-, hvisits, hwrite⟩ := refusals_leave_no_trace.2.2.2.2 _ _ _ _ b t hrun
    exact ⟨_, b, t, rfl, refusals_leave_no_trace.2.2.2.1.each_taken hrun, hvisits,
      fun target => (hwrite target).1 rfl⟩

end TripleStore
