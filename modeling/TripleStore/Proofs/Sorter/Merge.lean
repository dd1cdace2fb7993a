import TripleStore.Proofs.Sorter.Order
import TripleStore.Proofs.Sorter.Record

/-!
# Merged runs

What a queue holds are the records that its heads are at, and those that are left to read of their
runs (`Head.Queued`). Its first head is at the least of them (`Head.Queued.le_of_mem`), and once
that one is answered, the queue holds the others (`Stream.next_of_holds`). So what is collected from
the runs of a sorter is what sorting all of their records in memory gives
(`Stream.collect_of_holds`).
-/

namespace TripleStore

variable {α : Type} [Ord α] [Record α]

namespace Head

/-- The head is at the first of these ascending records, and the others are left of its run. -/
structure StandsFor (h : Head α) (l : List α) : Prop where
  first : first? h.run l = some h
  ascending : Ascending l
  fits : ∀ a ∈ l, Record.Fits a

theorem standsFor_of_first? {h : Head α} {i : Nat} {l : List α} (hfirst : first? i l = some h)
    (hascending : Ascending l) (hfits : ∀ a ∈ l, Record.Fits a) : h.StandsFor l := by
  refine ⟨?_, hascending, hfits⟩
  cases l with
  | nil => cases hfirst
  | cons a l =>
    obtain rfl : _ = h := Option.some.inj hfirst
    rfl

theorem StandsFor.eq_cons {h : Head α} {l : List α} (hl : h.StandsFor l) :
    ∃ rest, l = h.record :: rest ∧ h.unread = rest.flatMap Record.encode := by
  cases l with
  | nil => cases hl.first
  | cons a rest =>
    have hhead := Option.some.inj hl.first
    exact ⟨rest, by rw [← hhead], by rw [← hhead]⟩

instance instTransOrd [Std.TransOrd α] : Std.TransOrd (Head α) :=
  inferInstanceAs (Std.TransCmp (compareLex (compareOn Head.record) (compareOn Head.run)))

omit [Record α] in
theorem isLE_record {g h : Head α} (hle : (compare g h).isLE) : (compare g.record h.record).isLE :=
  Ordering.isLE_left_of_isLE_then hle

/-- The queue is in order and holds these records, each run its own ascending ones. -/
inductive Queued : List (Head α) → List α → Prop
  | nil : Queued [] []
  | cons {h : Head α} {queue : List (Head α)} {l others records : List α}
      (least : ∀ g ∈ queue, (compare h g).isLE) (own : h.StandsFor l)
      (rest : Queued queue others) (all : records.Perm (l ++ others)) : Queued (h :: queue) records

omit [Record α] in
theorem mem_insert {g h : Head α} {queue : List (Head α)} (hg : g ∈ h.insert queue) :
    g = h ∨ g ∈ queue := by
  induction queue with
  | nil => exact .inl (List.mem_singleton.1 hg)
  | cons k queue ih =>
    unfold insert at hg
    split at hg
    · exact List.mem_cons.1 hg
    · rcases List.mem_cons.1 hg with rfl | hg
      · exact .inr List.mem_cons_self
      · exact (ih hg).imp_right (List.mem_cons_of_mem k)

variable [Std.TransOrd α] {h : Head α} {queue : List (Head α)} {l records : List α}

omit [Std.TransOrd α] in
theorem Queued.of_perm {records' : List α} (hqueue : Queued queue records)
    (h : records.Perm records') : Queued queue records' := by
  cases hqueue with
  | nil =>
    obtain rfl := h.nil_eq
    exact .nil
  | cons least hown rest hall => exact .cons least hown rest (h.symm.trans hall)

/-- **A run that is read on gets its place in the queue.** -/
theorem Queued.insert (hqueue : Queued queue records) (hl : h.StandsFor l) :
    Queued (h.insert queue) (l ++ records) := by
  induction hqueue with
  | nil => exact .cons (fun g hg => nomatch hg) hl .nil (.refl _)
  | @cons g queue own others records least hown rest hall ih =>
    unfold Head.insert
    split
    · rename_i hhg
      refine .cons (fun k hk => ?_) hl (.cons least hown rest hall) (.refl _)
      rcases List.mem_cons.1 hk with rfl | hk
      · exact hhg
      · exact Std.TransCmp.isLE_trans hhg (least k hk)
    · rename_i hhg
      refine .cons (fun k hk => ?_) hown ih ?_
      · rcases mem_insert hk with rfl | hk
        · have htotal := Sorter.le_total g k
          simpa [Sorter.le, hhg] using htotal
        · exact least k hk
      · exact (hall.append_left l).trans (List.perm_append_comm_assoc l own others)

/-- The same for what was read of a run, if anything was. -/
theorem Queued.refill (hqueue : Queued queue records) {i : Nat} (hascending : Ascending l)
    (hfits : ∀ a ∈ l, Record.Fits a) : Queued (Head.refill (first? i l) queue) (l ++ records) := by
  cases l with
  | nil => exact hqueue
  | cons a l => exact hqueue.insert (standsFor_of_first? rfl hascending hfits)

/-- The queue of runs that are being opened holds the records of all of them. -/
theorem queued_foldr_refill {runs : List Nat} {content : Nat → List α}
    (hascending : ∀ i ∈ runs, Ascending (content i))
    (hfits : ∀ i ∈ runs, ∀ a ∈ content i, Record.Fits a) :
    Queued ((runs.map fun i => first? i (content i)).foldr Head.refill [])
      (runs.map content).flatten := by
  induction runs with
  | nil => exact .nil
  | cons i runs ih =>
    have hqueue := ih (fun j hj => hascending j (List.mem_cons_of_mem i hj))
      (fun j hj => hfits j (List.mem_cons_of_mem i hj))
    exact hqueue.refill (hascending i List.mem_cons_self) (hfits i List.mem_cons_self)

/-- Every record of a queue comes behind one that a head is at. -/
theorem Queued.exists_le_of_mem (hqueue : Queued queue records) {a : α} (ha : a ∈ records) :
    ∃ g ∈ queue, (compare g.record a).isLE := by
  induction hqueue with
  | nil => cases ha
  | @cons g queue own others records least hown rest hall ih =>
    rcases List.mem_append.1 (hall.mem_iff.1 ha) with ha | ha
    · refine ⟨g, List.mem_cons_self, ?_⟩
      obtain ⟨tail, rfl, -⟩ := hown.eq_cons
      rcases List.mem_cons.1 ha with rfl | ha
      · exact Std.ReflCmp.isLE_rfl
      · exact List.rel_of_pairwise_cons hown.ascending ha
    · obtain ⟨k, hk, hle⟩ := ih ha
      exact ⟨k, List.mem_cons_of_mem g hk, hle⟩

/-- **The first head is at the least record.** -/
theorem Queued.le_of_mem (hqueue : Queued (h :: queue) records) {a : α} (ha : a ∈ records) :
    (compare h.record a).isLE := by
  obtain ⟨g, hg, hle⟩ := hqueue.exists_le_of_mem ha
  cases hqueue with
  | cons least hown rest hall =>
    rcases List.mem_cons.1 hg with rfl | hg
    · exact hle
    · exact Std.TransCmp.isLE_trans (isLE_record (least g hg)) hle

/-- **When the first head has been answered**, the queue holds the other records. -/
theorem Queued.next (hqueue : Queued (h :: queue) records) :
    ∃ following others, read? h.run h.unread = .ok following ∧
      Queued (Head.refill following queue) others ∧ records.Perm (h.record :: others) ∧
      ∀ b ∈ others, (compare h.record b).isLE := by
  have hleast : ∀ b ∈ records, (compare h.record b).isLE := fun b hb => hqueue.le_of_mem hb
  cases hqueue with
  | @cons _ _ own others _ least hown rest hall =>
    obtain ⟨tail, rfl, hunread⟩ := hown.eq_cons
    have hfits : ∀ a ∈ tail, Record.Fits a := fun a ha =>
      hown.fits a (List.mem_cons_of_mem _ ha)
    refine ⟨first? h.run tail, tail ++ others, ?_, ?_, hall, fun b hb => ?_⟩
    · rw [hunread, read?_flatMap_encode hfits]
    · exact rest.refill (List.pairwise_cons.1 hown.ascending).2 hfits
    · exact hleast b (hall.mem_iff.2 (List.mem_cons_of_mem _ hb))

end Head

namespace Stream

open Head (Queued)

/-- The stream has these records still to answer. -/
inductive Holds : Stream α → List α → Prop
  | memory {l records : List α} (ascending : Ascending l) (all : l.Perm records) :
      Holds (memory l) records
  | merge {queue : List (Head α)} {records : List α} (queued : Queued queue records) :
      Holds (merge queue) records

variable [Std.TransOrd α] {x : Stream α} {records : List α}

/-- **A stream answers its least record**, without an error, and has the others still to answer. -/
theorem next_of_holds (hx : x.Holds records) :
    (records = [] ∧ x.next = none) ∨
    ∃ a y others, x.next = some (.ok a, y) ∧ y.Holds others ∧ records.Perm (a :: others) ∧
      ∀ b ∈ others, (compare a b).isLE := by
  cases hx with
  | @memory l _ hascending hall =>
    cases l with
    | nil => exact .inl ⟨hall.nil_eq.symm, rfl⟩
    | cons a l =>
      have ha := (List.pairwise_cons.1 hascending).1
      have hl := (List.pairwise_cons.1 hascending).2
      exact .inr ⟨a, memory l, l, rfl, .memory hl (.refl l), hall.symm, ha⟩
  | @merge queue _ hqueue =>
    cases queue with
    | nil =>
      cases hqueue
      exact .inl ⟨rfl, rfl⟩
    | cons h queue =>
      obtain ⟨following, others, hread, hqueue', hall, hleast⟩ := hqueue.next
      exact .inr ⟨h.record, _, others, by rw [next, hread], .merge hqueue', hall, hleast⟩

omit [Std.TransOrd α] in
theorem collectOnto_of_none (before : List α) (h : x.next = none) :
    x.collectOnto before = .ok before.reverse := by
  unfold collectOnto
  split <;> simp_all

omit [Std.TransOrd α] in
theorem collectOnto_of_ok (before : List α) {a : α} {y : Stream α}
    (h : x.next = some (.ok a, y)) : x.collectOnto before = y.collectOnto (a :: before) := by
  conv_lhs => unfold collectOnto
  split <;> simp_all

variable [Std.LawfulEqOrd α]

theorem collectOnto_of_holds {n : Nat} {before : List α} (hn : records.length = n)
    (hx : x.Holds records) :
    x.collectOnto before = .ok (before.reverse ++ Sorter.sorted records) := by
  induction n generalizing x before records with
  | zero =>
    obtain rfl := List.length_eq_zero_iff.1 hn
    rcases next_of_holds hx with ⟨-, hnext⟩ | ⟨a, y, others, -, -, hall, -⟩
    · rw [collectOnto_of_none before hnext]
      simp [Sorter.sorted]
    · cases hall.nil_eq
  | succ n ih =>
    rcases next_of_holds hx with ⟨rfl, -⟩ | ⟨a, y, others, hnext, hy, hall, hleast⟩
    · cases hn
    · have hlength : others.length = n := by
        have := hall.length_eq
        simp only [List.length_cons] at this
        omega
      rw [collectOnto_of_ok before hnext, ih hlength hy, Sorter.sorted_eq_cons hall hleast]
      simp

/-- **What is collected of a stream are its records, sorted.** -/
theorem collect_of_holds (hx : x.Holds records) : x.collect = .ok (Sorter.sorted records) :=
  collectOnto_of_holds rfl hx

end Stream

end TripleStore
