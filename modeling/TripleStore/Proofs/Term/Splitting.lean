import TripleStore.Proofs.Term.Offset

/-!
# How terms are split

A splitter cuts a term wherever it can: `Splitter.splits_exactly` says for which terms, where, and
that the bytes are cut between two characters. The shared part of a split is shared by all terms
that differ in the other part only (`Splitter.split_of_shared`). A colon anywhere in an IRI is taken
for the end of a scheme, so relative IRIs are cut as well
(`Splitter.split_relative_eq_whole_iff`).
-/

namespace TripleStore

/-! ## What is cut -/

/-- An IRI cut behind the last boundary that follows its scheme. -/
structure LeadingCut (m : SplitMode) (term x l : String) : Prop where
  mode : m.cutsIris = true
  join : x ++ l = term
  shared_ne : x ≠ ""
  rest_ne : l ≠ ""
  bracket : term.toList.head? = some '<'
  not_quoted : ¬ ['<', '<'] <+: term.toList
  closed : term.toList.getLast? = some '>'
  /-- The shared part ends with a boundary behind the first colon of the term, and behind the two
  slashes if such follow that colon. -/
  boundary : ∃ before after space b, term.toList = before ++ ':' :: after ∧ ':' ∉ before ∧
    x.toList = before ++ schemeEnd after ++ (space ++ [b]) ∧ m.isBoundary b = true
  last : ∀ c ∈ l.toList, m.isBoundary c = false

/-- A literal cut before its last quote. -/
structure TrailingCut (m : SplitMode) (term x l : String) : Prop where
  mode : m.cutsLiterals = true
  join : l ++ x = term
  shared_ne : x ≠ ""
  rest_ne : l ≠ ""
  quote : term.toList.head? = some '"'
  /-- The shared part is a quote, none behind it, and a language tag or a datatype. -/
  ending : ∃ ending, x.toList = '"' :: ending ∧ '"' ∉ ending ∧
    ((∃ tag, tag ≠ [] ∧ ending = '@' :: tag) ∨
      ∃ type, type ≠ [] ∧ ending = '^' :: '^' :: '<' :: (type ++ ['>']))

namespace Splitter

variable {s : Splitter} {m : SplitMode} {term x l : String}

theorem cut_eq_leading_iff_leadingCut :
    cut m term = .parted .leading x l ↔ LeadingCut m term x l := by
  rw [cut_eq_leading_iff]
  constructor
  · rintro ⟨hmode, rfl, ⟨scheme, init, b, hx, hhead, hscheme, hb⟩, hlast, hname⟩
    have hlong := hscheme.append_name hname
    have hterm : (x ++ l).toList = '<' :: (scheme ++ (init ++ [b] ++ l.toList)) := by
      rw [String.toList_append, hx]
      simp
    refine ⟨hmode, rfl, ?_, ?_, by rw [hterm]; rfl, ?_, ?_, ?_, hname⟩
    · rintro rfl
      cases hx
    · rintro rfl
      cases hlast
    · rw [hterm, List.cons_prefix_cons, ← List.singleton_append]
      rintro ⟨-, rest, hrest⟩
      rw [← hlong.head?_append (init ++ [b] ++ l.toList), ← hrest] at hhead
      exact hhead rfl
    · rw [String.toList_append, List.getLast?_append, hlast]
      rfl
    · obtain ⟨before, after, hbefore, rfl, hbody⟩ := hlong.exists_schemeEnd
      refine ⟨'<' :: before, after, init, b, ?_, by simpa using hbefore, hx, hb⟩
      rw [hterm, hbody]
      rfl
  · rintro ⟨hmode, rfl, -, hne, hbracket, hquoted, hclosed, hboundary, hname⟩
    obtain ⟨before, after, space, b, hterm, hbefore, hx, hb⟩ := hboundary
    obtain ⟨before, rfl⟩ : ∃ rest, before = '<' :: rest := by
      cases before with
      | nil => simp [hterm] at hbracket
      | cons c before => exact ⟨before, by simpa [hterm] using hbracket⟩
    obtain ⟨path, hpath, hscheme⟩ := isScheme_schemeEnd (fun h => hbefore (.tail _ h)) after
    obtain rfl : path = space ++ [b] ++ l.toList := by
      have hbody : before ++ schemeEnd after ++ path =
          before ++ schemeEnd after ++ (space ++ [b] ++ l.toList) := by
        rw [← hpath]
        simpa [hx] using hterm.symm
      exact List.append_cancel_left hbody
    refine ⟨hmode, rfl, ⟨before ++ schemeEnd after, space, b, hx, ?_, hscheme.of_append, hb⟩, ?_,
      hname⟩
    · intro hhead
      rw [← hscheme.head?_append (space ++ [b] ++ l.toList), ← hpath] at hhead
      obtain ⟨rest, hrest⟩ := List.head?_eq_some_iff.1 hhead
      exact hquoted ⟨rest, (hterm.trans (congrArg (List.cons '<') hrest)).symm⟩
    · rwa [String.toList_append, List.getLast?_append_of_ne_nil _ (by simpa using hne)] at hclosed

theorem cut_eq_trailing_iff_trailingCut :
    cut m term = .parted .trailing x l ↔ TrailingCut m term x l := by
  rw [cut_eq_trailing_iff]
  constructor
  · rintro ⟨hmode, rfl, hquote, ending, hx, hfree, hannotated⟩
    refine ⟨hmode, rfl, ?_, ?_, ?_, ending, hx, hfree, isAnnotated_eq_true_iff.1 hannotated⟩
    · rintro rfl
      cases hx
    · rintro rfl
      cases hquote
    · rw [String.toList_append, List.head?_append, hquote]
      rfl
  · rintro ⟨hmode, rfl, -, hne, hquote, ending, hx, hfree, hannotated⟩
    refine ⟨hmode, rfl, ?_, ending, hx, hfree, isAnnotated_eq_true_iff.2 hannotated⟩
    rwa [String.toList_append, List.head?_append_of_ne_nil _ (by simpa using hne)] at hquote

/-! ## Splits are exact -/

/-- What a splitter does to a term. -/
structure Exact (s : Splitter) (term : String) : Prop where
  /-- The parts give the term back. -/
  join : (s.split term).join = term
  /-- The bytes of the term are cut where their search says. -/
  offset : s.offset? (octets term.toUTF8) = (s.split term).offset?
  /-- No character is cut. -/
  isValid : ∀ {edge n}, (s.split term).offset? = some (edge, n) → (String.Pos.Raw.mk n).IsValid term
  leading : ∀ {x l}, s.split term = .parted .leading x l ↔
    LeadingCut s.mode term x l ∧ s.minShared.toNat ≤ x.utf8ByteSize
  trailing : ∀ {x l}, s.split term = .parted .trailing x l ↔
    TrailingCut s.mode term x l ∧ s.minShared.toNat ≤ x.utf8ByteSize
  /-- The minimum decides only whether the cut is made. -/
  minShared : s.split term =
    if s.minShared.toNat ≤ ((mk s.mode 0).split term).shared.utf8ByteSize then
      (mk s.mode 0).split term
    else .whole term

theorem split_eq_ite (s : Splitter) (term : String) : s.split term =
    if s.minShared.toNat ≤ ((mk s.mode 0).split term).shared.utf8ByteSize then
      (mk s.mode 0).split term
    else .whole term := by
  have hzero : (mk s.mode 0).split term = cut s.mode term := by
    unfold split
    split
    · rename_i hcut
      rw [hcut]
      exact if_pos (Nat.zero_le _)
    · rename_i hcut
      exact hcut.symm
  rw [hzero, split]
  rcases hcut : cut s.mode term with whole | ⟨edge, shared, rest⟩
  · rw [(cut_eq_whole_iff.1 hcut).1, ite_self]
  · rfl

/-- **Splits are exact.** A term is cut wherever a cut of it shares enough bytes, between two of its
characters, and nowhere else. -/
theorem splits_exactly (s : Splitter) (term : String) : s.Exact term where
  join := s.join_split term
  offset := s.offset?_toUTF8 term
  isValid h := by simpa using Split.isValid_of_offset? h
  leading := by
    intro x l
    rw [split_eq_parted_iff, cut_eq_leading_iff_leadingCut]
  trailing := by
    intro x l
    rw [split_eq_parted_iff, cut_eq_trailing_iff_trailingCut]
  minShared := s.split_eq_ite term

/-! ## Shared parts are shared -/

/-- **Terms share their parts.** The shared part of a split is also the shared part of any term with
another name, or with another text. -/
theorem split_of_shared (s : Splitter) (term x l : String) :
    (s.split term = .parted .leading x l → ∀ name : String, name.toList.getLast? = some '>' →
      (∀ c ∈ name.toList, s.mode.isBoundary c = false) →
        s.split (x ++ name) = .parted .leading x name) ∧
    (s.split term = .parted .trailing x l → ∀ text : String, text.toList.head? = some '"' →
      s.split (text ++ x) = .parted .trailing x text) := by
  simp only [split_eq_parted_iff, cut_eq_leading_iff, cut_eq_trailing_iff]
  constructor
  · rintro ⟨⟨hmode, -, hspace, -⟩, hlong⟩ name hlast hname
    exact ⟨⟨hmode, trivial, hspace, hlast, hname⟩, hlong⟩
  · rintro ⟨⟨hmode, -, -, hending⟩, hlong⟩ text hquote
    exact ⟨⟨hmode, trivial, hquote, hending⟩, hlong⟩

theorem split_of_shared_at_namespace :
    (mk .both 3).split "<a:b/ü>" = .parted .leading "<a:b/" "ü>" ∧
    (mk .both 3).split ("<a:b/" ++ "x:y>") = .parted .leading "<a:b/" "x:y>" ∧
    (mk .both 3).split "\"ü\"@en" = .parted .trailing "\"@en" "\"ü" ∧
    (mk .both 3).split ("\"x\"@y" ++ "\"@en") = .parted .trailing "\"@en" "\"x\"@y" :=
  ⟨by decide, (split_of_shared _ "<a:b/ü>" _ "ü>").1 (by decide) _ (by decide)
      (by simp [SplitMode.isBoundary]),
    by decide, (split_of_shared _ "\"ü\"@en" _ "\"ü").2 (by decide) _ (by decide)⟩

/-! ## Relative IRIs -/

/-- A leading part of the body of an IRI that ends with a boundary behind the first colon, and
behind the two slashes if such follow that colon. -/
def EndsBehindColon (m : SplitMode) (body space : List Char) : Prop :=
  ∃ before after path b, body = before ++ ':' :: after ∧ ':' ∉ before ∧ m.isBoundary b = true ∧
    space = before ++ schemeEnd after ++ (path ++ [b]) ∧ space <+: body

theorem toList_iri (body : String) :
    ("<" ++ body ++ ">").toList = '<' :: (body.toList ++ ['>']) := by
  simp

theorem length_utf8_bracket (text : List Char) :
    (utf8 ('<' :: text)).length = (utf8 text).length + 1 := by
  rw [utf8_cons_of_lt (by decide), List.length_cons]

/-- An IRI is cut if a leading part of its body ends with a boundary and is long enough, since the
shared part reaches to the last such boundary. -/
theorem exists_split_of_endsBehindColon {body : String} {space : List Char}
    (hmode : s.mode.cutsIris = true) (hhead : body.toList.head? ≠ some '<')
    (hspace : EndsBehindColon s.mode body.toList space)
    (hlong : s.minShared.toNat ≤ (utf8 space).length + 1) :
    ∃ x l, s.split ("<" ++ body ++ ">") = .parted .leading x l := by
  obtain ⟨before, after, init, b, hbody, hbefore, hb, rfl, hprefix⟩ := hspace
  obtain ⟨path, hpath, hscheme⟩ := isScheme_schemeEnd hbefore after
  have hinit : init ++ [b] <+: path := by
    rwa [hbody, hpath, List.prefix_append_right_inj] at hprefix
  rcases hcut : cutAfterLast s.mode.isBoundary path with _ | ⟨space, name⟩
  · have hmem : b ∈ path := hinit.subset (by simp)
    rw [cutAfterLast_eq_none_iff.1 hcut b hmem] at hb
    cases hb
  · have hle := prefix_of_cutAfterLast hcut hinit hb
    refine ⟨String.ofList ('<' :: (before ++ schemeEnd after ++ space)),
      String.ofList (name ++ ['>']), split_eq_parted_iff.2
        ⟨cut_eq_leading_iff_cutIri.2 ⟨hmode, ?_⟩, ?_⟩⟩
    · rw [toList_iri, String.toList_ofList, String.toList_ofList, cutIri_iri_eq_some_iff]
      refine ⟨hhead, _, path, space, name, ?_, hcut, rfl, rfl⟩
      rw [hbody, hpath, cutScheme_append hscheme]
    · rw [← length_utf8_toList, String.toList_ofList, length_utf8_bracket, utf8_append,
        List.length_append]
      rw [utf8_append, List.length_append] at hlong
      have := (utf8_prefix_iff.2 hle).length_le
      omega

/-- An IRI stays whole exactly if no leading part of its body that ends with a boundary is worth
sharing. -/
theorem split_iri_eq_whole_iff {body : String} :
    s.split ("<" ++ body ++ ">") = .whole ("<" ++ body ++ ">") ↔
      (s.mode.cutsIris = true → body.toList.head? ≠ some '<' → ∀ space,
        EndsBehindColon s.mode body.toList space →
          (utf8 space).length + 1 < s.minShared.toNat) := by
  constructor
  · intro h hmode hhead space hspace
    by_contra hshort
    obtain ⟨x, l, hsplit⟩ :=
      exists_split_of_endsBehindColon hmode hhead hspace (Nat.not_lt.1 hshort)
    rw [h] at hsplit
    cases hsplit
  · intro h
    rcases hsplit : s.split ("<" ++ body ++ ">") with whole | ⟨_ | _, x, l⟩
    · rw [← s.join_split ("<" ++ body ++ ">"), hsplit]
      rfl
    · obtain ⟨hcut, hlong⟩ := split_eq_parted_iff.1 hsplit
      obtain ⟨hmode, hcut⟩ := cut_eq_leading_iff_cutIri.1 hcut
      rw [toList_iri, cutIri_iri_eq_some_iff] at hcut
      obtain ⟨hhead, scheme, path, space, name, hscheme, hpath, hx, -⟩ := hcut
      obtain ⟨hbody, hscheme⟩ := cutScheme_eq_some_iff.1 hscheme
      obtain ⟨rfl, ⟨init, b, rfl, hb⟩, -⟩ := cutAfterLast_eq_some_iff.1 hpath
      obtain ⟨before, after, hbefore, rfl, hcolon⟩ := hscheme.exists_schemeEnd
      have hshort := h hmode hhead _ ⟨before, after, init, b, hbody.trans hcolon, hbefore, hb, rfl,
        name, by simp [hbody]⟩
      rw [← length_utf8_toList, hx, length_utf8_bracket] at hlong
      omega
    · have hquote := head?_of_cutLiteral
        (cut_eq_trailing_iff_cutLiteral.1 (split_eq_parted_iff.1 hsplit).1).2
      rw [toList_iri] at hquote
      cases hquote

/-- The body of an IRI is a relative reference: it has no colon, or a path, a query or a fragment
starts before the first one, which then ends no scheme. -/
def IsRelative (body : List Char) : Prop :=
  ':' ∉ body ∨ ∃ c ∈ body.takeWhile (· != ':'), c ∈ ['/', '?', '#']

/-- **When relative IRIs stay whole**: exactly if no boundary behind a colon in their path, query or
fragment is worth cutting at. -/
theorem split_relative_eq_whole_iff (s : Splitter) {body : String}
    (hrelative : IsRelative body.toList) :
    s.split ("<" ++ body ++ ">") = .whole ("<" ++ body ++ ">") ↔
      (s.mode.cutsIris = true → body.toList.head? ≠ some '<' →
        (∃ c ∈ body.toList.takeWhile (· != ':'), c ∈ ['/', '?', '#']) → ∀ space,
          EndsBehindColon s.mode body.toList space →
            (utf8 space).length + 1 < s.minShared.toNat) := by
  rw [split_iri_eq_whole_iff]
  constructor
  · intro h hmode hhead _
    exact h hmode hhead
  · intro h hmode hhead space hspace
    rcases hrelative with hcolon | hdelimiter
    · obtain ⟨before, after, _, _, hbody, -⟩ := hspace
      exact absurd (by simp [hbody]) hcolon
    · exact h hmode hhead hdelimiter space hspace

/-- A path with a colon that is too short to be shared. -/
theorem split_relative_below_minimum : IsRelative "a/b:c/d".toList ∧
    (mk .namespaces 9).split ("<" ++ "a/b:c/d" ++ ">") = .whole ("<" ++ "a/b:c/d" ++ ">") := by
  have hrelative : IsRelative "a/b:c/d".toList := .inr ⟨'/', by decide, by decide⟩
  refine ⟨hrelative, (split_relative_eq_whole_iff _ hrelative).2 fun _ _ _ space hspace => ?_⟩
  obtain ⟨_, _, _, _, -, -, -, -, hprefix⟩ := hspace
  calc (utf8 space).length + 1
      ≤ (utf8 "a/b:c/d".toList).length + 1 :=
        Nat.add_le_add_right (utf8_prefix_iff.2 hprefix).length_le 1
    _ < 9 := by decide

/-- The same path is cut where it is long enough, and does not stay whole. -/
theorem split_relative_behind_colon : IsRelative "a/b:c/d".toList ∧
    (mk .namespaces 0).split "<a/b:c/d>" = .parted .leading "<a/b:c/" "d>" ∧
    (mk .namespaces 0).split "<a/b:c/d>" ≠ .whole "<a/b:c/d>" :=
  ⟨.inr ⟨'/', by decide, by decide⟩, by decide, by decide⟩

end Splitter

end TripleStore
