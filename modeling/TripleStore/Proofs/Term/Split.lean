import Mathlib.Data.List.Basic
import Mathlib.Data.List.TakeWhile
import TripleStore.Term.Split

/-!
# Joining what was split

A splitter only cuts: the parts of a split, joined at its edge, are the term (`join_split`).
-/

namespace TripleStore

/-- A list is cut behind an element with the property, and none follows. -/
theorem exists_of_cutAfterLast {α : Type} {p : α → Bool} {l head tail : List α}
    (h : cutAfterLast p l = some (head, tail)) :
    ∃ init a, head = init ++ [a] ∧ p a = true ∧ l = init ++ a :: tail ∧
      ∀ b ∈ tail, p b = false := by
  simp only [cutAfterLast, Option.ite_none_left_eq_some, Option.some.injEq, Prod.mk.injEq] at h
  obtain ⟨hne, rfl, rfl⟩ := h
  have hl := congrArg List.reverse
    (List.takeWhile_append_dropWhile (p := fun a => !p a) (l := l.reverse))
  cases hd : l.reverse.dropWhile (fun a => !p a) with
  | nil => simp [hd] at hne
  | cons a rest =>
    refine ⟨rest.reverse, a, by simp, ?_, ?_, ?_⟩
    · have := List.head?_dropWhile_not (fun a => !p a) l.reverse
      simpa [hd] using this
    · rw [hd] at hl
      simpa using hl.symm
    · intro b hb
      simpa using List.mem_takeWhile_imp (List.mem_reverse.1 hb)

theorem cutAfterLast_join {α : Type} {p : α → Bool} {l head tail : List α}
    (h : cutAfterLast p l = some (head, tail)) : head ++ tail = l := by
  obtain ⟨init, a, rfl, -, rfl, -⟩ := exists_of_cutAfterLast h
  simp

theorem cutScheme_join {body scheme path : List Char} (h : cutScheme body = some (scheme, path)) :
    scheme ++ path = body := by
  have hb := List.takeWhile_append_dropWhile (p := (· != ':')) (l := body)
  have hcolon : ∀ c rest, body.dropWhile (· != ':') = c :: rest → c = ':' := by
    intro c rest hd
    have := List.head?_dropWhile_not (· != ':') body
    simpa [hd] using this
  unfold cutScheme at h
  split at h
  · simp at h
  · rename_i c after hd
    obtain rfl := hcolon _ _ hd
    simp only [Option.some.injEq, Prod.mk.injEq] at h
    obtain ⟨rfl, rfl⟩ := h
    rw [hd] at hb
    simpa using hb
  · rename_i c after _ hd
    obtain rfl := hcolon _ _ hd
    simp only [Option.some.injEq, Prod.mk.injEq] at h
    obtain ⟨rfl, rfl⟩ := h
    rw [hd] at hb
    simpa using hb

theorem iriBody?_eq_some {term body : List Char} (h : iriBody? term = some body) :
    term = '<' :: (body ++ ['>']) := by
  unfold iriBody? at h
  split at h
  · simp at h
  · rename_i text _
    simp only [Option.ite_none_right_eq_some, Option.some.injEq] at h
    obtain ⟨hlast, rfl⟩ := h
    rw [List.dropLast_append_getLast? _ hlast]
  · simp at h

theorem cutIri_join {m : SplitMode} {term space name : List Char}
    (h : cutIri m term = some (space, name)) : space ++ name = term := by
  simp only [cutIri, Option.bind_eq_bind, Option.bind_eq_some_iff, Option.pure_def,
    Option.some.injEq, Prod.mk.injEq, Prod.exists] at h
  obtain ⟨body, hbody, scheme, path, hscheme, head, tail, hcut, rfl, rfl⟩ := h
  rw [iriBody?_eq_some hbody, ← cutScheme_join hscheme, ← cutAfterLast_join hcut]
  simp

theorem cutLiteral_join {term text annotation : List Char}
    (h : cutLiteral term = some (text, annotation)) : text ++ annotation = term := by
  unfold cutLiteral at h
  split at h
  · rename_i rest
    split at h
    · rename_i quoted tail hcut
      obtain ⟨init, a, rfl, ha, rfl, -⟩ := exists_of_cutAfterLast hcut
      obtain rfl : a = '"' := by simpa using ha
      simp only [Option.ite_none_right_eq_some, Option.some.injEq, Prod.mk.injEq] at h
      obtain ⟨-, rfl, rfl⟩ := h
      simp
    · simp at h
  · simp at h

namespace Splitter

theorem join_cut (m : SplitMode) (term : String) : (cut m term).join = term := by
  unfold cut
  generalize hiri : (if m.cutsIris = true then cutIri m term.toList else none) = iri
  generalize hliteral : (if m.cutsLiterals = true then cutLiteral term.toList else none) = literal
  rcases iri with _ | ⟨space, name⟩
  · rcases literal with _ | ⟨text, annotation⟩
    · rfl
    · have hcut := (Option.ite_none_right_eq_some.1 hliteral).2
      simp only [Split.join, ← String.ofList_append, cutLiteral_join hcut, String.ofList_toList]
  · have hcut := (Option.ite_none_right_eq_some.1 hiri).2
    simp only [Split.join, ← String.ofList_append, cutIri_join hcut, String.ofList_toList]

/-- **A split is a cut**: its parts, joined at the edge, are the term. -/
@[simp] theorem join_split (s : Splitter) (term : String) : (s.split term).join = term := by
  have hcut := join_cut s.mode term
  unfold split
  split
  · rename_i edge shared rest h
    rw [h] at hcut
    split
    · exact hcut
    · rfl
  · rename_i whole h
    rwa [h] at hcut

end Splitter

end TripleStore
