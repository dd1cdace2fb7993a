import TripleStore.Proofs.Octets
import TripleStore.Result

/-!
# A machine with numbers of 64 bits

The readers count with numbers of any size, and a slice of a byte string is cut off where that ends.
A machine has numbers of 64 bits and slices that must lie inside their byte strings: a run of it can
fault, besides answering or failing. `Machine` runs are written as the readers are, with a step for
each sum, product, difference and slice that nothing guards. A run that equals the `lift` of an
answer has not faulted, and `lift_bind_congr` goes along a run step by step.
-/

namespace TripleStore

/-- A run on a machine. It has no value if it faults. -/
abbrev Machine := ExceptT StoreError Option

namespace Machine

variable {α β : Type}

/-- The run that faults. -/
def fault : Machine α := (none : Option (Result α))

/-- The run that ends with an answer or an error. -/
def lift (x : Result α) : Machine α := (some x : Option (Result α))

/-! ## Steps that can fault -/

/-- A number must have 64 bits. -/
def fits (n : Nat) : Machine Unit := if n < limit64 then pure () else fault

/-- A number that is divided by must not be zero. -/
def nonzero (n : Nat) : Machine Unit := if n ≠ 0 then pure () else fault

/-- A difference must not be negative. -/
def minus (a b : Nat) : Machine Nat := if b ≤ a then pure (a - b) else fault

/-- A slice must lie inside its byte string. -/
def slice (data : ByteArray) (start stop : Nat) : Machine ByteArray :=
  if start ≤ stop ∧ stop ≤ data.size then pure (data.extract start stop) else fault

/-- The bytes of an integer must lie inside their byte string. -/
def digitsAt (data : ByteArray) (i w : Nat) : Machine Nat :=
  if i + w ≤ data.size then pure (readDigits data i w) else fault

/-- Takes an error as an answer, as a sequence does with the errors of its items. -/
def attempt (m : Machine α) : Machine (Result α) := (Option.map Except.ok m : Option _)

/-! ## Laws -/

theorem lift_ok_bind (a : α) (f : α → Machine β) : lift (.ok a) >>= f = f a := rfl

/-- **A run that goes on as an answer does ends as that does.** -/
theorem lift_bind_congr {x : Result α} {f : α → Machine β} {g : α → Result β}
    (h : ∀ a, x = .ok a → f a = lift (g a)) : lift x >>= f = lift (x >>= g) := by
  cases x with
  | error e => rfl
  | ok a => exact h a rfl

theorem fits_bind {n : Nat} (h : n < limit64) (f : Unit → Machine β) : fits n >>= f = f () := by
  rw [fits, if_pos h]
  rfl

theorem nonzero_bind {n : Nat} (h : n ≠ 0) (f : Unit → Machine β) : nonzero n >>= f = f () := by
  rw [nonzero, if_pos h]
  rfl

theorem minus_bind {a b : Nat} (h : b ≤ a) (f : Nat → Machine β) :
    minus a b >>= f = f (a - b) := by
  rw [minus, if_pos h]
  rfl

theorem slice_bind {data : ByteArray} {start stop : Nat} (hle : start ≤ stop)
    (hstop : stop ≤ data.size) (f : ByteArray → Machine β) :
    slice data start stop >>= f = f (data.extract start stop) := by
  rw [slice, if_pos ⟨hle, hstop⟩]
  rfl

theorem digitsAt_bind {data : ByteArray} {i w : Nat} (h : i + w ≤ data.size)
    (f : Nat → Machine β) : digitsAt data i w >>= f = f (readDigits data i w) := by
  rw [digitsAt, if_pos h]
  rfl

theorem attempt_lift (x : Result α) : attempt (lift x) = pure x := rfl

theorem forM_eq_lift {l : List α} {f : α → Machine Unit} {g : α → Result Unit}
    (h : ∀ a ∈ l, f a = lift (g a)) : l.forM f = lift (l.forM g) := by
  induction l with
  | nil => rfl
  | cons a l ih =>
    change (f a >>= fun _ => l.forM f) = lift (g a >>= fun _ => l.forM g)
    rw [h a List.mem_cons_self]
    exact lift_bind_congr fun _ _ => ih fun b hb => h b (List.mem_cons_of_mem a hb)

/-- A sequence whose items do not fault is read to its end. -/
theorem mapM_attempt {l : List α} {f : α → Machine β} {g : α → Result β}
    (h : ∀ a ∈ l, f a = lift (g a)) : l.mapM (fun a => attempt (f a)) = pure (l.map g) := by
  induction l with
  | nil => rfl
  | cons a l ih =>
    rw [List.mapM_cons, h a List.mem_cons_self, attempt_lift, pure_bind,
      ih fun b hb => h b (List.mem_cons_of_mem a hb), pure_bind, List.map_cons]

end Machine

end TripleStore
