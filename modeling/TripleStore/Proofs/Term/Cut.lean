import Mathlib.Data.List.Infix
import TripleStore.Proofs.Term.Split

/-!
# Where terms are cut

A term is cut exactly where its parts have the right form, and the form of each part does not depend
on the other: an IRI between a namespace (`IsNamespace`) and a name (`IsName`), a literal between
its quoted text and its ending (`IsLiteralEnd`). These are `Splitter.cut_eq_leading_iff` and
`Splitter.cut_eq_trailing_iff`; a splitter keeps those of the cuts that share enough bytes
(`Splitter.split_eq_parted_iff`).
-/

namespace TripleStore

/-! ## Cuts after the last element with a property -/

section

variable {α : Type} {p : α → Bool} {l head tail : List α}

theorem beq_eq_false_of_notMem [BEq α] [LawfulBEq α] {a : α} (h : a ∉ l) :
    ∀ b ∈ l, (b == a) = false := fun _ hb =>
  beq_eq_false_iff_ne.2 (ne_of_mem_of_not_mem hb h)

theorem cutAfterLast_append {init : List α} {a : α} (ha : p a = true)
    (htail : ∀ b ∈ tail, p b = false) :
    cutAfterLast p (init ++ a :: tail) = some (init ++ [a], tail) := by
  have hreverse : (init ++ a :: tail).reverse = tail.reverse ++ a :: init.reverse := by simp
  have htake : (tail.reverse ++ a :: init.reverse).takeWhile (fun b => !p b) = tail.reverse := by
    rw [List.takeWhile_append_of_pos fun b hb => by simp [htail b (List.mem_reverse.1 hb)]]
    simp [ha]
  have hdrop : (tail.reverse ++ a :: init.reverse).dropWhile (fun b => !p b) =
      a :: init.reverse := by
    rw [List.dropWhile_append_of_pos fun b hb => by simp [htail b (List.mem_reverse.1 hb)]]
    simp [ha]
  simp [cutAfterLast, hreverse, htake, hdrop]

/-- The cut is made behind the last element with the property. -/
theorem cutAfterLast_eq_some_iff : cutAfterLast p l = some (head, tail) ↔
    l = head ++ tail ∧ (∃ init a, head = init ++ [a] ∧ p a = true) ∧ ∀ b ∈ tail, p b = false := by
  constructor
  · intro h
    obtain ⟨init, a, rfl, ha, rfl, htail⟩ := exists_of_cutAfterLast h
    exact ⟨by simp, ⟨init, a, rfl, ha⟩, htail⟩
  · rintro ⟨rfl, ⟨init, a, rfl, ha⟩, htail⟩
    simpa using cutAfterLast_append ha htail

/-- No later cut is behind an element with the property. -/
theorem prefix_of_cutAfterLast {init : List α} {a : α} (h : cutAfterLast p l = some (head, tail))
    (hinit : init ++ [a] <+: l) (ha : p a = true) : init ++ [a] <+: head := by
  obtain ⟨rfl, -, htail⟩ := cutAfterLast_eq_some_iff.1 h
  rcases List.prefix_or_prefix_of_prefix hinit (List.prefix_append head tail) with hle | ⟨mid, hmid⟩
  · exact hle
  · rcases List.eq_nil_or_concat mid with rfl | ⟨mid, c, rfl⟩
    · rw [← hmid, List.append_nil]
    · -- the element would be one of those behind the cut
      rw [List.concat_eq_append, ← List.append_assoc] at hmid
      obtain ⟨rfl, hc⟩ := List.append_inj' hmid rfl
      obtain rfl := List.singleton_inj.1 hc
      obtain ⟨rest, hrest⟩ := hinit
      have hmem : c ∈ tail := by
        rw [List.append_assoc, List.append_assoc] at hrest
        rw [← List.append_cancel_left hrest]
        simp
      exact absurd ha (by simp [htail c hmem])

/-- There is no cut where no element has the property. -/
theorem cutAfterLast_eq_none_iff : cutAfterLast p l = none ↔ ∀ a ∈ l, p a = false := by
  simp [cutAfterLast, List.isEmpty_iff, List.dropWhile_eq_nil_iff]

end

/-! ## IRIs -/

/-- A scheme with its colon, and with the two slashes behind the colon if the rest of the IRI has
such there. -/
def IsScheme (scheme path : List Char) : Prop :=
  ∃ before, ':' ∉ before ∧
    (scheme = before ++ [':', '/', '/'] ∨ scheme = before ++ [':'] ∧ ¬ ['/', '/'] <+: path)

theorem IsScheme.head?_append {scheme path : List Char} (h : IsScheme scheme path)
    (l : List Char) : (scheme ++ l).head? = scheme.head? := by
  obtain ⟨before, -, rfl | ⟨rfl, -⟩⟩ := h <;> cases before <;> rfl

/-- Whether slashes start a path is not changed by cutting its end off. -/
theorem IsScheme.of_append {scheme path rest : List Char} (h : IsScheme scheme (path ++ rest)) :
    IsScheme scheme path := by
  obtain ⟨before, hbefore, hends⟩ := h
  exact ⟨before, hbefore, hends.imp_right fun ⟨heq, hslashes⟩ =>
    ⟨heq, fun hshort => hslashes (hshort.trans (List.prefix_append _ _))⟩⟩

theorem cutScheme_append {scheme path : List Char} (h : IsScheme scheme path) :
    cutScheme (scheme ++ path) = some (scheme, path) := by
  obtain ⟨before, hbefore, hscheme⟩ := h
  have hne : ∀ c ∈ before, (c != ':') = true := fun c hc => by
    rw [bne, beq_eq_false_of_notMem hbefore c hc, Bool.not_false]
  have htake : ∀ after, (before ++ ':' :: after).takeWhile (· != ':') = before := fun after => by
    rw [List.takeWhile_append_of_pos hne]
    simp
  have hdrop : ∀ after, (before ++ ':' :: after).dropWhile (· != ':') = ':' :: after :=
    fun after => by
      rw [List.dropWhile_append_of_pos hne]
      simp
  rcases hscheme with rfl | ⟨rfl, hslashes⟩
  · have hbody : before ++ [':', '/', '/'] ++ path = before ++ ':' :: '/' :: '/' :: path := by simp
    rw [cutScheme, hbody, hdrop, htake]
    rfl
  · have hbody : before ++ [':'] ++ path = before ++ ':' :: path := by simp
    rw [cutScheme, hbody, hdrop, htake]
    split
    · rename_i heq
      cases heq
    · rename_i after heq
      obtain ⟨-, rfl⟩ := List.cons_eq_cons.1 heq
      exact absurd ⟨after, rfl⟩ hslashes
    · rename_i heq
      obtain ⟨-, rfl⟩ := List.cons_eq_cons.1 heq
      rfl

/-- A body is cut behind its scheme. -/
theorem cutScheme_eq_some_iff {body scheme path : List Char} :
    cutScheme body = some (scheme, path) ↔ body = scheme ++ path ∧ IsScheme scheme path := by
  constructor
  · intro h
    refine ⟨(cutScheme_join h).symm, body.takeWhile (· != ':'), fun hmem => ?_, ?_⟩
    · simpa using List.mem_takeWhile_imp hmem
    · unfold cutScheme at h
      split at h
      · cases h
      · obtain ⟨rfl, -⟩ := Prod.mk.inj (Option.some.inj h)
        exact .inl rfl
      · rename_i hslashes _
        obtain ⟨rfl, rfl⟩ := Prod.mk.inj (Option.some.inj h)
        refine .inr ⟨rfl, ?_⟩
        rintro ⟨after, rfl⟩
        exact hslashes _ rfl
  · rintro ⟨rfl, h⟩
    exact cutScheme_append h

/-- What ends a scheme: the colon, with the two slashes behind it if there are such. -/
def schemeEnd (after : List Char) : List Char :=
  if ['/', '/'] <+: after then [':', '/', '/'] else [':']

/-- The scheme of a body ends at its first colon. -/
theorem isScheme_schemeEnd {before : List Char} (hbefore : ':' ∉ before) (after : List Char) :
    ∃ path, before ++ ':' :: after = before ++ schemeEnd after ++ path ∧
      IsScheme (before ++ schemeEnd after) path := by
  unfold schemeEnd
  split
  · rename_i hslashes
    obtain ⟨path, rfl⟩ := hslashes
    exact ⟨path, by simp, before, hbefore, .inl rfl⟩
  · exact ⟨after, by simp, before, hbefore, .inr ⟨rfl, ‹_›⟩⟩

/-- Every scheme ends at the first colon of the body. -/
theorem IsScheme.exists_schemeEnd {scheme path : List Char} (h : IsScheme scheme path) :
    ∃ before after, ':' ∉ before ∧ scheme = before ++ schemeEnd after ∧
      scheme ++ path = before ++ ':' :: after := by
  obtain ⟨before, hbefore, rfl | ⟨rfl, hslashes⟩⟩ := h
  · exact ⟨before, '/' :: '/' :: path, hbefore, by simp [schemeEnd], by simp⟩
  · exact ⟨before, path, hbefore, by simp [schemeEnd, hslashes], by simp⟩

/-- A body without a colon has no scheme. -/
theorem cutScheme_eq_none_iff {body : List Char} : cutScheme body = none ↔ ':' ∉ body := by
  constructor
  · intro h hmem
    obtain ⟨before, after, rfl, hbefore⟩ := List.eq_append_cons_of_mem hmem
    obtain ⟨path, hbody, hscheme⟩ := isScheme_schemeEnd hbefore after
    rw [hbody, cutScheme_append hscheme] at h
    cases h
  · intro hnone
    rw [Option.eq_none_iff_forall_ne_some]
    rintro ⟨scheme, path⟩ h
    obtain ⟨rfl, before, -, rfl | ⟨rfl, -⟩⟩ := cutScheme_eq_some_iff.1 h <;> simp at hnone

/-- A body is what stands between brackets, if it does not start with a bracket itself. -/
theorem iriBody?_eq_some_iff {term body : List Char} :
    iriBody? term = some body ↔ term = '<' :: (body ++ ['>']) ∧ body.head? ≠ some '<' := by
  constructor
  · intro h
    refine ⟨iriBody?_eq_some h, fun hhead => ?_⟩
    obtain rfl := iriBody?_eq_some h
    obtain ⟨body, rfl⟩ : ∃ tail, body = '<' :: tail := by
      cases body with
      | nil => cases hhead
      | cons c body => exact ⟨body, by rw [Option.some.inj hhead]⟩
    cases h
  · rintro ⟨rfl, hhead⟩
    unfold iriBody?
    split
    · rename_i text heq
      cases body with
      | nil => cases heq
      | cons c body => exact absurd (by simpa using congrArg (·.tail.head?) heq) hhead
    · rename_i text _ heq
      obtain rfl := (List.cons_eq_cons.1 heq).2
      simp
    · rename_i hother
      exact absurd rfl (hother _)

/-- The cut of an IRI, step by step. -/
theorem cutIri_iri_eq_some_iff {m : SplitMode} {body x l : List Char} :
    cutIri m ('<' :: (body ++ ['>'])) = some (x, l) ↔ body.head? ≠ some '<' ∧
      ∃ scheme path space name, cutScheme body = some (scheme, path) ∧
        cutAfterLast m.isBoundary path = some (space, name) ∧
        x = '<' :: (scheme ++ space) ∧ l = name ++ ['>'] := by
  simp only [cutIri, Option.bind_eq_bind, Option.bind_eq_some_iff, Option.pure_def,
    Option.some.injEq, Prod.mk.injEq, Prod.exists, iriBody?_eq_some_iff]
  constructor
  · rintro ⟨body', ⟨hbody, hhead⟩, scheme, path, hscheme, space, name, hcut, rfl, rfl⟩
    obtain rfl : body = body' := List.append_cancel_right (List.cons_eq_cons.1 hbody).2
    exact ⟨hhead, scheme, path, space, name, hscheme, hcut, rfl, rfl⟩
  · rintro ⟨hhead, scheme, path, space, name, hscheme, hcut, rfl, rfl⟩
    exact ⟨body, ⟨rfl, hhead⟩, scheme, path, hscheme, space, name, hcut, rfl, rfl⟩

/-- The leading part of an IRI that is shared: a bracket, a scheme, and a path up to a boundary. -/
def IsNamespace (m : SplitMode) (x : List Char) : Prop :=
  ∃ scheme init b, x = '<' :: (scheme ++ (init ++ [b])) ∧ scheme.head? ≠ some '<' ∧
    IsScheme scheme (init ++ [b]) ∧ m.isBoundary b = true

/-- The remaining part of an IRI: the final bracket, and no boundary. -/
def IsName (m : SplitMode) (l : List Char) : Prop :=
  l.getLast? = some '>' ∧ ∀ c ∈ l, m.isBoundary c = false

theorem SplitMode.isBoundary_slash (m : SplitMode) : m.isBoundary '/' = true := rfl

theorem SplitMode.isBoundary_bracket (m : SplitMode) : m.isBoundary '>' = false := rfl

/-- A name behind a path does not move the end of the scheme. -/
theorem IsScheme.append_name {m : SplitMode} {scheme init name : List Char} {b : Char}
    (h : IsScheme scheme (init ++ [b])) (hname : ∀ c ∈ name, m.isBoundary c = false) :
    IsScheme scheme (init ++ [b] ++ name) := by
  obtain ⟨before, hbefore, hscheme⟩ := h
  refine ⟨before, hbefore, hscheme.imp_right fun ⟨heq, hslashes⟩ => ⟨heq, fun hlong => ?_⟩⟩
  rcases Nat.lt_or_ge (init ++ [b]).length 2 with hshort | hlength
  · -- the second slash would be the first character of the name
    obtain rfl : init = [] := by
      rw [List.length_append, List.length_singleton] at hshort
      exact List.length_eq_zero_iff.1 (by omega)
    obtain ⟨rest, hrest⟩ := hlong
    obtain ⟨-, rfl⟩ : '/' = b ∧ '/' :: rest = name := by simpa using hrest
    exact absurd m.isBoundary_slash (by simp [hname '/' List.mem_cons_self])
  · exact hslashes (List.prefix_of_prefix_length_le hlong (List.prefix_append _ _) hlength)

/-- **An IRI is cut between a namespace and a name.** -/
theorem cutIri_eq_some_iff {m : SplitMode} {term x l : List Char} :
    cutIri m term = some (x, l) ↔ term = x ++ l ∧ IsNamespace m x ∧ IsName m l := by
  simp only [cutIri, Option.bind_eq_bind, Option.bind_eq_some_iff, Option.pure_def,
    Option.some.injEq, Prod.mk.injEq, Prod.exists, iriBody?_eq_some_iff, cutScheme_eq_some_iff,
    cutAfterLast_eq_some_iff]
  constructor
  · rintro ⟨_, ⟨rfl, hhead⟩, scheme, _, ⟨rfl, hscheme⟩, _, name, ⟨rfl, ⟨init, b, rfl, hb⟩, hname⟩,
      rfl, rfl⟩
    rw [hscheme.head?_append] at hhead
    refine ⟨by simp, ⟨scheme, init, b, rfl, hhead, hscheme.of_append, hb⟩, by simp, ?_⟩
    intro c hc
    rcases List.mem_append.1 hc with hc | hc
    · exact hname c hc
    · rw [List.mem_singleton.1 hc, m.isBoundary_bracket]
  · rintro ⟨rfl, ⟨scheme, init, b, rfl, hhead, hscheme, hb⟩, hlast, hname⟩
    obtain ⟨name, rfl⟩ := List.getLast?_eq_some_iff.1 hlast
    have hname : ∀ c ∈ name, m.isBoundary c = false := fun c hc =>
      hname c (List.mem_append_left _ hc)
    refine ⟨scheme ++ (init ++ [b] ++ name), ⟨by simp, ?_⟩, scheme, _,
      ⟨rfl, hscheme.append_name hname⟩, init ++ [b], name, ⟨rfl, ⟨init, b, rfl, hb⟩, hname⟩, rfl,
      rfl⟩
    rwa [hscheme.head?_append]

theorem head?_of_cutIri {m : SplitMode} {term x l : List Char} (h : cutIri m term = some (x, l)) :
    term.head? = some '<' := by
  obtain ⟨rfl, ⟨scheme, init, b, rfl, -⟩, -⟩ := cutIri_eq_some_iff.1 h
  rfl

/-! ## Literals -/

/-- The last quote is followed by a language tag, or by a datatype between brackets. -/
theorem isAnnotated_eq_true_iff {ending : List Char} : isAnnotated ending = true ↔
    (∃ tag, tag ≠ [] ∧ ending = '@' :: tag) ∨
      ∃ type, type ≠ [] ∧ ending = '^' :: '^' :: '<' :: (type ++ ['>']) := by
  unfold isAnnotated
  split
  · rename_i c tag
    exact iff_of_true rfl (.inl ⟨c :: tag, List.cons_ne_nil _ _, rfl⟩)
  · rename_i text
    simp only [Bool.and_eq_true, decide_eq_true_eq, beq_iff_eq, List.getLast?_eq_some_iff]
    constructor
    · rintro ⟨hlength, type, rfl⟩
      refine .inr ⟨type, fun hnil => ?_, rfl⟩
      rw [hnil] at hlength
      exact absurd hlength (by decide)
    · rintro (⟨tag, -, heq⟩ | ⟨type, hne, heq⟩)
      · cases heq
      · obtain rfl : text = type ++ ['>'] := by simpa using heq
        have hlength := List.length_pos_iff.2 hne
        exact ⟨by rw [List.length_append, List.length_singleton]; omega, type, rfl⟩
  · rename_i htag htype
    refine iff_of_false Bool.false_ne_true ?_
    rintro (⟨tag, hne, rfl⟩ | ⟨type, -, rfl⟩)
    · cases tag with
      | nil => exact hne rfl
      | cons c tag => exact htag c tag rfl
    · exact htype _ rfl

/-- The trailing part of a literal that is shared: the last quote, and an ending. -/
def IsLiteralEnd (x : List Char) : Prop :=
  ∃ ending, x = '"' :: ending ∧ '"' ∉ ending ∧ isAnnotated ending = true

/-- **A literal is cut between its quoted text and its ending.** -/
theorem cutLiteral_eq_some_iff {term x l : List Char} :
    cutLiteral term = some (l, x) ↔ term = l ++ x ∧ l.head? = some '"' ∧ IsLiteralEnd x := by
  constructor
  · intro h
    refine ⟨(cutLiteral_join h).symm, ?_⟩
    unfold cutLiteral at h
    split at h
    · split at h
      · rename_i quoted ending hcut
        obtain ⟨-, -, hending⟩ := cutAfterLast_eq_some_iff.1 hcut
        obtain ⟨hannotated, h⟩ := Option.ite_none_right_eq_some.1 h
        obtain ⟨rfl, rfl⟩ := Prod.mk.inj (Option.some.inj h)
        refine ⟨rfl, ending, rfl, fun hmem => ?_, hannotated⟩
        simpa using hending _ hmem
      · cases h
    · cases h
  · rintro ⟨rfl, hhead, ending, rfl, hquote, hannotated⟩
    obtain ⟨text, rfl⟩ := List.head?_eq_some_iff.1 hhead
    have hcut : cutAfterLast (· == '"') (text ++ '"' :: ending) =
        some (text ++ ['"'], ending) :=
      cutAfterLast_append rfl (beq_eq_false_of_notMem hquote)
    rw [List.cons_append, cutLiteral, hcut]
    simp [hannotated]

theorem head?_of_cutLiteral {term x l : List Char} (h : cutLiteral term = some (l, x)) :
    term.head? = some '"' := by
  obtain ⟨rfl, hhead, -⟩ := cutLiteral_eq_some_iff.1 h
  rw [List.head?_append, hhead]
  rfl

/-- What is cut as a literal is not cut as an IRI. -/
theorem cutIri_eq_none_of_cutLiteral {m : SplitMode} {term x l : List Char}
    (h : cutLiteral term = some (l, x)) : cutIri m term = none := by
  rw [Option.eq_none_iff_forall_ne_some]
  rintro ⟨space, name⟩ hiri
  exact absurd ((head?_of_cutIri hiri).symm.trans (head?_of_cutLiteral h)) (by decide)

/-! ## Splits -/

namespace Splitter

variable {m : SplitMode} {s : Splitter} {term x l : String} {edge : Edge}

theorem cut_eq_leading_iff_cutIri : cut m term = .parted .leading x l ↔
    m.cutsIris = true ∧ cutIri m term.toList = some (x.toList, l.toList) := by
  unfold cut
  rcases hiri : (if m.cutsIris = true then cutIri m term.toList else none) with _ | ⟨space, name⟩
  · rcases (if m.cutsLiterals = true then cutLiteral term.toList else none) with _ | ⟨_, _⟩ <;>
      simp_all
  · obtain ⟨hmode, hcut⟩ := Option.ite_none_right_eq_some.1 hiri
    simp [hmode, hcut, ← String.toList_inj]

theorem cut_eq_trailing_iff_cutLiteral : cut m term = .parted .trailing x l ↔
    m.cutsLiterals = true ∧ cutLiteral term.toList = some (l.toList, x.toList) := by
  unfold cut
  rcases hiri : (if m.cutsIris = true then cutIri m term.toList else none) with _ | ⟨space, name⟩
  · rcases hliteral : (if m.cutsLiterals = true then cutLiteral term.toList else none) with
      _ | ⟨text, ending⟩
    · simp_all
    · obtain ⟨hmode, hcut⟩ := Option.ite_none_right_eq_some.1 hliteral
      simp [hmode, hcut, ← String.toList_inj, and_comm]
  · constructor
    · intro h
      cases h
    · rintro ⟨-, hcut⟩
      rw [cutIri_eq_none_of_cutLiteral hcut, ite_self] at hiri
      cases hiri

/-- A term stays whole if neither of its cuts is made. -/
theorem cut_eq_whole_iff {whole : String} : cut m term = .whole whole ↔
    whole = term ∧ (m.cutsIris = true → cutIri m term.toList = none) ∧
      (m.cutsLiterals = true → cutLiteral term.toList = none) := by
  unfold cut
  rcases hiri : (if m.cutsIris = true then cutIri m term.toList else none) with _ | ⟨space, name⟩
  · rcases hliteral : (if m.cutsLiterals = true then cutLiteral term.toList else none) with
      _ | ⟨text, ending⟩
    · rw [Split.whole.injEq, eq_comm]
      exact ⟨fun h => ⟨h, fun hm => by rwa [if_pos hm] at hiri,
        fun hm => by rwa [if_pos hm] at hliteral⟩, And.left⟩
    · obtain ⟨hmode, hcut⟩ := Option.ite_none_right_eq_some.1 hliteral
      simp [hmode, hcut]
  · obtain ⟨hmode, hcut⟩ := Option.ite_none_right_eq_some.1 hiri
    simp [hmode, hcut]

/-- **An IRI is cut between a namespace and a name**, if the mode cuts IRIs, and nothing else is cut
behind a leading part. -/
theorem cut_eq_leading_iff : cut m term = .parted .leading x l ↔
    m.cutsIris = true ∧ term = x ++ l ∧ IsNamespace m x.toList ∧ IsName m l.toList := by
  rw [cut_eq_leading_iff_cutIri, cutIri_eq_some_iff, ← String.toList_append, String.toList_inj]

/-- **A literal is cut between its quoted text and its ending**, if the mode cuts literals, and
nothing else is cut before a trailing part. -/
theorem cut_eq_trailing_iff : cut m term = .parted .trailing x l ↔
    m.cutsLiterals = true ∧ term = l ++ x ∧ l.toList.head? = some '"' ∧
      IsLiteralEnd x.toList := by
  rw [cut_eq_trailing_iff_cutLiteral, cutLiteral_eq_some_iff, ← String.toList_append,
    String.toList_inj]

/-- A splitter keeps the cuts that share enough bytes. -/
theorem split_eq_parted_iff : s.split term = .parted edge x l ↔
    cut s.mode term = .parted edge x l ∧ s.minShared.toNat ≤ x.utf8ByteSize := by
  unfold split
  split
  · rename_i e shared rest hcut
    rw [hcut]
    split
    · rename_i hlong
      refine ⟨fun h => ⟨h, ?_⟩, And.left⟩
      obtain ⟨-, rfl, -⟩ := Split.parted.inj h
      exact hlong
    · rename_i hshort
      refine ⟨fun h => (nomatch h), fun ⟨h, hlong⟩ => absurd ?_ hshort⟩
      obtain ⟨-, rfl, -⟩ := Split.parted.inj h
      exact hlong
  · rename_i whole hcut
    simp [hcut]

end Splitter

end TripleStore
