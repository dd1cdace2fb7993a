import TripleStore.Error

/-!
# Checks

Readers are chains of checks: `require` fails with an error unless a condition holds, `orFail` takes
the value out of an option or fails. A chain succeeds exactly if every link does, which is what
`bind_eq_ok` and the two link lemmas say.
-/

namespace TripleStore

/-- Fails with `e` unless `c` holds. -/
def require (c : Prop) [Decidable c] (e : StoreError) : Result Unit :=
  if c then .ok () else .error e

/-- The value of an option; fails with `e` if there is none. -/
def orFail {α : Type} (o : Option α) (e : StoreError) : Result α :=
  match o with
  | some a => .ok a
  | none => .error e

@[simp] theorem require_eq_ok {c : Prop} [Decidable c] {e : StoreError} {u : Unit} :
    require c e = .ok u ↔ c := by
  unfold require; split <;> simp_all

@[simp] theorem orFail_eq_ok {α : Type} {o : Option α} {e : StoreError} {a : α} :
    orFail o e = .ok a ↔ o = some a := by
  cases o <;> simp [orFail]

/-- The items up to the first error, which is the last one kept. -/
def untilError {α : Type} (items : Results α) : Results α :=
  items.takeWhile (·.isOk) ++ (items.dropWhile (·.isOk)).take 1

theorem bind_eq_ok {ε α β : Type} {x : Except ε α} {f : α → Except ε β} {b : β} :
    (x >>= f) = .ok b ↔ ∃ a, x = .ok a ∧ f a = .ok b := by
  cases x <;> simp [bind, Except.bind]

/-- What follows a refusal was not refused. -/
theorem refuse_eq_ok {ε α β : Type} {c : Prop} [Decidable c] {fault : ε} {g : α → Except ε β}
    {x : Except ε β} {b : β} :
    (if c then (throw fault : Except ε α) >>= g else x) = .ok b ↔ ¬ c ∧ x = .ok b := by
  by_cases hc : c
  · simp [hc, throw, throwThe, MonadExceptOf.throw, bind, Except.bind]
  · simp [hc]

theorem map_eq_ok {ε α β : Type} {x : Except ε α} {g : α → β} {b : β} :
    x.map g = .ok b ↔ ∃ a, x = .ok a ∧ g a = b := by
  cases x <;> simp [Except.map]

theorem mapError_eq_ok {ε ε' α : Type} {x : Except ε α} {g : ε → ε'} {a : α} :
    x.mapError g = .ok a ↔ x = .ok a := by
  cases x with
  | ok b => exact ⟨fun h => congrArg Except.ok (Except.ok.inj h),
      fun h => congrArg Except.ok (Except.ok.inj h)⟩
  | error e => exact ⟨fun h => (nomatch h), fun h => nomatch h⟩

end TripleStore
