import TripleStore.Result
import TripleStore.Sorter.Record

/-!
# Merging runs

The sorted runs of a sorter are read back side by side, one record of each at a time. The records
read, each with what is left of its run, wait in a queue, smallest first and equal ones by the
number of their run. The first of them is answered, and the next record of its run takes its place
(`Stream.next`). A record that cannot be read is an error, and its run is not read any further.
-/

namespace TripleStore

/-- The record that a run is at, the number of the run, and what is left to read of it. -/
structure Head (α : Type) where
  record : α
  run : Nat
  unread : List UInt8

namespace Head

variable {α : Type}

/-- The order of the queue: by record, then by run. -/
instance instOrd [Ord α] : Ord (Head α) where
  compare g h := (compare g.record h.record).then (compare g.run h.run)

/-- Reads the next record of a run, if one is left. -/
def read? [Record α] (run : Nat) (unread : List UInt8) : Result (Option (Head α)) :=
  if unread.isEmpty then .ok none
  else do
    let (record, rest) ← (Record.decode unread).mapError .io
    return some ⟨record, run, rest⟩

/-- Puts a record in its place in the queue. -/
def insert [Ord α] (h : Head α) : List (Head α) → List (Head α)
  | [] => [h]
  | g :: queue => if (compare h g).isLE then h :: g :: queue else g :: insert h queue

/-- The queue with the record that was read of a run, if one was left. -/
def refill [Ord α] (following : Option (Head α)) (queue : List (Head α)) : List (Head α) :=
  match following with
  | some h => h.insert queue
  | none => queue

theorem length_lt_of_read? [Record α] {run : Nat} {unread : List UInt8} {h : Head α}
    (hread : read? run unread = .ok (some h)) : h.unread.length < unread.length := by
  unfold read? at hread
  split at hread
  · cases hread
  · obtain ⟨⟨record, rest⟩, hdecode, hsome⟩ := bind_eq_ok.1 hread
    obtain rfl : _ = h := Option.some.inj (Except.ok.inj hsome)
    exact Record.length_lt_of_decode (mapError_eq_ok.1 hdecode)

end Head

/-- The records that a sorter has still to answer, in ascending order: those of a list, or those of
runs, by way of the queue of the records that the runs are at. -/
inductive Stream (α : Type)
  | memory (records : List α)
  | merge (queue : List (Head α))

namespace Stream

variable {α : Type}

/-- The bytes that are left to read of the runs in a queue, and one for each record in it. -/
def weight : List (Head α) → Nat
  | [] => 0
  | h :: queue => h.unread.length + 1 + weight queue

/-- A bound for the number of records that are left. -/
def size : Stream α → Nat
  | memory records => records.length
  | merge queue => weight queue

variable [Ord α]

theorem weight_insert (h : Head α) (queue : List (Head α)) :
    weight (h.insert queue) = h.unread.length + 1 + weight queue := by
  induction queue with
  | nil => rfl
  | cons g queue ih =>
    unfold Head.insert
    split
    · rfl
    · simp only [weight, ih]
      omega

variable [Record α]

/-- The next record, or the error that came up behind it, and what is left then. -/
def next : Stream α → Option (Result α × Stream α)
  | memory [] => none
  | memory (a :: records) => some (.ok a, memory records)
  | merge [] => none
  | merge (h :: queue) =>
    match Head.read? h.run h.unread with
    | .ok following => some (.ok h.record, merge (Head.refill following queue))
    | .error e => some (.error e, merge queue)

theorem size_lt_of_next {x y : Stream α} {r : Result α} (h : x.next = some (r, y)) :
    y.size < x.size := by
  unfold next at h
  split at h
  · cases h
  · obtain ⟨-, rfl⟩ := Prod.mk.inj (Option.some.inj h)
    exact Nat.lt_succ_self _
  · cases h
  · rename_i g queue
    have hweight : weight (g :: queue) = g.unread.length + 1 + weight queue := rfl
    split at h
    · rename_i following hread
      obtain ⟨-, rfl⟩ := Prod.mk.inj (Option.some.inj h)
      cases following with
      | none =>
        simp only [size, Head.refill]
        omega
      | some next =>
        have := Head.length_lt_of_read? hread
        simp only [size, Head.refill, weight_insert]
        omega
    · obtain ⟨-, rfl⟩ := Prod.mk.inj (Option.some.inj h)
      simp only [size]
      omega

/-- The records that are left, behind those answered before (last one first), or the first error. -/
def collectOnto (before : List α) (x : Stream α) : Result (List α) :=
  match _h : x.next with
  | none => .ok before.reverse
  | some (.ok a, y) => y.collectOnto (a :: before)
  | some (.error e, _) => .error e
termination_by x.size
decreasing_by exact size_lt_of_next _h

/-- All records that are left, or the first error. -/
def collect (x : Stream α) : Result (List α) := x.collectOnto []

end Stream

end TripleStore
