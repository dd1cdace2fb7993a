import TripleStore.Proofs.TripleIndex.Build
import TripleStore.Store

/-!
# Matching patterns

A pattern agrees with a triple if every bound role does. A store whose indices answer for the same
triples matches a pattern with exactly the triples that agree, as often as they occur, in the order
of the index that keeps the bound roles in front (`Store.matching_of_answers`). This holds of every
store over the files of one build of indices (`Store.matching_of_build`).
-/

namespace TripleStore

namespace Pattern

/-- Every bound role of the pattern is that of the triple. -/
def agrees (p : Pattern) (t : Triple) : Bool :=
  p.subject.all (t.subject == ·) && p.predicate.all (t.predicate == ·) &&
    p.object.all (t.object == ·)

/-- The order in which the triples that match a pattern come. Subject and object alone are looked up
under the object, where the triples of one subject come by predicate. -/
def order : Pattern → RoleOrder
  | ⟨some _, none, some _⟩ => .ops
  | ⟨some _, _, _⟩ => .spo
  | ⟨none, some _, none⟩ => .pso
  | ⟨none, _, some _⟩ => .ops
  | ⟨none, none, none⟩ => .spo

/-- What a search of triples for a pattern has to find. -/
structure Finds (p : Pattern) (triples found : List Triple) : Prop where
  /-- Each triple that agrees is found as often as it occurs. -/
  perm : found.Perm (triples.filter p.agrees)
  ascending : Ascending (found.map (·.toRow p.order))
  /-- Under a subject and an object the triples come by predicate. -/
  predicates : p.subject.isSome → p.object.isSome →
    (found.map (·.predicate)).Pairwise (· ≤ ·)

variable {p : Pattern} {triples found : List Triple}

/-- The triples that agree, taken from the rows of an index. -/
def select (p : Pattern) (rows : List Row) (order : RoleOrder) : List Triple :=
  (rows.filter fun r => p.agrees (r.toTriple order)).map (·.toTriple order)

/-- Rows that a test picks as the pattern does make the triples that agree. -/
theorem map_filter_eq_select {rows : List Row} {order : RoleOrder} {test : Row → Bool}
    {make : Row → Triple} (htest : ∀ r, p.agrees (r.toTriple order) = test r)
    (hmake : ∀ r, test r = true → make r = r.toTriple order) :
    (rows.filter test).map make = p.select rows order := by
  rw [select, List.filter_congr fun r _ => htest r]
  exact List.map_congr_left fun r hr => hmake r (List.mem_filter.1 hr).2

theorem select_sorted_perm (p : Pattern) (triples : List Triple) (order : RoleOrder) :
    (p.select (Sorter.sorted (triples.map (·.toRow order))) order).Perm
      (triples.filter p.agrees) := by
  refine (((Sorter.sorted_perm _).filter _).map _).trans (List.Perm.of_eq ?_)
  rw [List.filter_map, List.map_map]
  simp only [Function.comp_def, Triple.toTriple_toRow]
  exact List.map_id _

theorem ascending_select {rows : List Row} (h : Ascending rows) (order : RoleOrder) :
    Ascending ((p.select rows order).map (·.toRow order)) := by
  rw [select, List.map_map]
  simp only [Function.comp_def, Row.toRow_toTriple, List.map_id']
  exact h.filter _

/-- Triples of one subject and one object that ascend in the order of a pattern ascend by predicate.
-/
theorem predicate_le {a b : Triple} (hs : p.subject.isSome) (ho : p.object.isSome)
    (ha : p.agrees a = true) (hb : p.agrees b = true)
    (hab : (compare (a.toRow p.order) (b.toRow p.order)).isLE) : a.predicate ≤ b.predicate := by
  obtain ⟨subject, predicate, object⟩ := p
  obtain ⟨subject, rfl⟩ := Option.isSome_iff_exists.1 hs
  obtain ⟨object, rfl⟩ := Option.isSome_iff_exists.1 ho
  rw [isLE_compare_row] at hab
  simp only [agrees, Option.all_some, Bool.and_eq_true, beq_iff_eq] at ha hb
  obtain ⟨⟨hasub, -⟩, haobj⟩ := ha
  obtain ⟨⟨hbsub, -⟩, hbobj⟩ := hb
  have hsub : a.subject = b.subject := hasub.trans hbsub.symm
  have hobj : a.object = b.object := haobj.trans hbobj.symm
  cases predicate <;>
    simp only [order, Triple.toRow, hsub, hobj, UInt64.lt_irrefl, UInt64.le_refl, true_and,
      false_or, and_true] at hab <;>
    exact hab.elim UInt64.le_of_lt fun h => h ▸ UInt64.le_refl _

/-- **The rows of triples, in the order of a pattern, give what a search has to find.** -/
theorem finds_select (p : Pattern) (triples : List Triple) :
    p.Finds triples (p.select (Sorter.sorted (triples.map (·.toRow p.order))) p.order) := by
  have hperm := p.select_sorted_perm triples p.order
  have hascending := ascending_select (p := p) (Sorter.ascending_sorted
    (triples.map (·.toRow p.order))) p.order
  refine ⟨hperm, hascending, fun hs ho => ?_⟩
  refine List.pairwise_map.2 ((List.pairwise_map.1 hascending).imp_of_mem ?_)
  intro a b ha hb hab
  exact predicate_le hs ho (List.mem_filter.1 (hperm.mem_iff.1 ha)).2
    (List.mem_filter.1 (hperm.mem_iff.1 hb)).2 hab

end Pattern

namespace Store

variable {s : Store} {triples : List Triple} {rows : List Row}

/-- What a read answers, made into triples, is what the pattern selects. -/
theorem each_eq_select {α : Type} {p : Pattern} {order : RoleOrder} {found : Result (Results α)}
    (test : Row → Bool) (part : Row → α) (make : α → Triple)
    (hfound : found = .ok (((rows.filter test).map part).map .ok))
    (htest : ∀ r, p.agrees (r.toTriple order) = test r)
    (hmake : ∀ r, test r = true → make (part r) = r.toTriple order) :
    (found.map (·.map (·.map make)) : Result (Results Triple)) =
      .ok ((p.select rows order).map .ok) := by
  have hselect : (rows.filter test).map (fun r => make (part r)) = p.select rows order :=
    Pattern.map_filter_eq_select htest hmake
  rw [hfound, ← hselect]
  simp only [Except.map, List.map_map]
  rfl

/-- **A pattern is matched with the triples that agree**, if the indices answer for all triples. -/
theorem matching_of_answers
    (h : ∀ order, (s.index order).Answers (Sorter.sorted (triples.map (·.toRow order))))
    (p : Pattern) :
    s.matching p =
      .ok ((p.select (Sorter.sorted (triples.map (·.toRow p.order))) p.order).map .ok) := by
  have hspo : s.spo.Answers _ := h .spo
  have hpso : s.pso.Answers _ := h .pso
  have hops : s.ops.Answers _ := h .ops
  match p with
  | ⟨some subj, some pred, some obj⟩ =>
    refine each_eq_select (fun r => r.key == subj && r.subKey == pred && r.value == obj) Row.value _
      ?_ (fun r => ?_) fun r hr => ?_
    · rw [hspo.values subj pred]
      simp only [Except.map, List.filter_map, List.filter_filter]
      refine congrArg _ (congrArg _ (congrArg _ (List.filter_congr fun r _ => ?_)))
      exact Bool.and_comm _ _
    · simp [Pattern.agrees, Row.toTriple, Pattern.order]
    · simp_all [Row.toTriple, Pattern.order]
  | ⟨some subj, some pred, none⟩ =>
    refine each_eq_select _ _ _ (hspo.values subj pred) (fun r => ?_) fun r hr => ?_
    · simp [Pattern.agrees, Row.toTriple, Pattern.order]
    · simp_all [Row.toTriple, Pattern.order]
  | ⟨some subj, none, some obj⟩ =>
    refine each_eq_select _ _ _ (hops.subKeys obj subj) (fun r => ?_) fun r hr => ?_
    · simp [Pattern.agrees, Row.toTriple, Pattern.order, Bool.and_comm]
    · simp_all [Row.toTriple, Pattern.order]
  | ⟨some subj, none, none⟩ =>
    refine each_eq_select _ _ _ (hspo.pairs subj) (fun r => ?_) fun r hr => ?_
    · simp [Pattern.agrees, Row.toTriple, Pattern.order]
    · simp_all [Row.toTriple, Pattern.order]
  | ⟨none, some pred, some obj⟩ =>
    refine each_eq_select _ _ _ (hops.values obj pred) (fun r => ?_) fun r hr => ?_
    · simp [Pattern.agrees, Row.toTriple, Pattern.order, Bool.and_comm]
    · simp_all [Row.toTriple, Pattern.order]
  | ⟨none, some pred, none⟩ =>
    refine each_eq_select _ _ _ (hpso.pairs pred) (fun r => ?_) fun r hr => ?_
    · simp [Pattern.agrees, Row.toTriple, Pattern.order]
    · simp_all [Row.toTriple, Pattern.order]
  | ⟨none, none, some obj⟩ =>
    refine each_eq_select _ _ _ (hops.pairs obj) (fun r => ?_) fun r hr => ?_
    · simp [Pattern.agrees, Row.toTriple, Pattern.order]
    · simp_all [Row.toTriple, Pattern.order]
  | ⟨none, none, none⟩ =>
    have hscan : (.ok s.spo.scan : Result (Results Row)) = .ok (((List.filter (fun _ => true)
        (Sorter.sorted (triples.map (·.toRow .spo)))).map id).map .ok) := by
      rw [List.filter_true, List.map_id]
      exact congrArg _ hspo.scan
    refine each_eq_select _ _ (·.toTriple .spo) hscan (fun r => ?_) fun r _ => ?_
    · simp [Pattern.agrees]
    · rfl

/-- The indices of a store are opened from the files of a directory. -/
def IndicesFrom (s : Store) (t : FileTree) (folder : Path) : Prop :=
  ∀ order, ∃ content, t.load (folder.child (RoleOrder.fileName order)) = .ok content ∧
    content.size < 2 ^ 63 ∧ TripleIndex.ofBytes content = .ok (s.index order)

/-- There is a store over the files of a build, whatever its dictionary is. -/
theorem exists_indicesFrom {t : FileTree} {folder : Path} (terms : Composite)
    (hfiles : ∀ order, ∃ content, t.load (folder.child (RoleOrder.fileName order)) = .ok content ∧
      TripleIndex.Filed content order (Sorter.sorted (triples.map (·.toRow order))))
    (hsmall : 184 + 48 * triples.length < 2 ^ 63) :
    ∃ s : Store, s.terms = terms ∧ s.IndicesFrom t folder := by
  have hopen : ∀ order, ∃ content x,
      t.load (folder.child (RoleOrder.fileName order)) = .ok content ∧
        content.size < 2 ^ 63 ∧ TripleIndex.ofBytes content = .ok x := fun order => by
    obtain ⟨content, hload, hfiled⟩ := hfiles order
    have hle := hfiled.size_le
    rw [Sorter.length_sorted, List.length_map] at hle
    have hsize : content.size < 2 ^ 63 := Nat.lt_of_le_of_lt hle hsmall
    obtain ⟨x, hx, -⟩ := hfiled.stores hsize
    exact ⟨content, x, hload, hsize, hx⟩
  choose content x hload hsize hx using hopen
  refine ⟨⟨terms, x .spo, x .pso, x .ops⟩, rfl, fun order => ⟨_, hload order, hsize order, ?_⟩⟩
  cases order <;> exact hx _

/-- **A store over the indices of any triples matches every pattern with the triples that agree.**
Every triple is found as often as it was taken into the build, in the order of the index in which
the pattern is looked up, and no item is an error. Ids that no triple has are matched with nothing.
-/
theorem matching_of_build {settings : Settings} {t : FileTree} {target : Destination}
    (hr : t.Ready settings.workPath target.path) (hc : settings.compressRuns = false)
    (triples : List Triple) :
    ∃ t', (IndexBuilder.build settings triples target).apply t = (.ok triples.length, t') ∧
      ∀ s : Store, s.IndicesFrom t' target.path →
        ∀ p : Pattern, ∃ found, s.matching p = .ok (found.map .ok) ∧ p.Finds triples found := by
  obtain ⟨t', hrun, hfiles⟩ := IndexBuilder.files_of_build hr hc triples
  refine ⟨t', hrun, fun s hs p => ⟨_, matching_of_answers (fun order => ?_) p,
    p.finds_select triples⟩⟩
  obtain ⟨content, hload, hfiled⟩ := hfiles order
  obtain ⟨content', hload', hsize, hopen⟩ := hs order
  obtain rfl : content = content' := Except.ok.inj (hload.symm.trans hload')
  obtain ⟨x, hx, -, -, hanswers⟩ := hfiled.stores hsize
  obtain rfl : x = s.index order := Except.ok.inj (hx.symm.trans hopen)
  exact hanswers

/-- There are stores over a build of two triples, one of them twice, and each of them finds both
copies under their subject and object. -/
theorem matching_of_build_twice :
    (FileTree.empty.Ready Settings.default.workPath ⟨true, ["out"], .name⟩ ∧
      Settings.default.compressRuns = false) ∧
    ∃ t', (IndexBuilder.build Settings.default [⟨3, 1, 2⟩, ⟨1, 1, 2⟩, ⟨3, 1, 2⟩]
        ⟨⟨true, ["out"], .name⟩, "/out"⟩).apply FileTree.empty = (.ok 3, t') ∧
      (∀ terms, ∃ s : Store, s.terms = terms ∧ s.IndicesFrom t' ⟨true, ["out"], .name⟩) ∧
      ∀ s : Store, s.IndicesFrom t' ⟨true, ["out"], .name⟩ →
        s.matching ⟨some 3, none, some 2⟩ = .ok [.ok ⟨3, 1, 2⟩, .ok ⟨3, 1, 2⟩] := by
  obtain ⟨t', hrun, hmatch⟩ :=
    @matching_of_build _ _ ⟨⟨true, ["out"], .name⟩, "/out"⟩ FileTree.ready_out rfl
      [⟨3, 1, 2⟩, ⟨1, 1, 2⟩, ⟨3, 1, 2⟩]
  obtain ⟨t'', hrun', hfiles⟩ :=
    @IndexBuilder.files_of_build _ ⟨⟨true, ["out"], .name⟩, "/out"⟩ _ FileTree.ready_out rfl
      [⟨3, 1, 2⟩, ⟨1, 1, 2⟩, ⟨3, 1, 2⟩]
  obtain rfl : t'' = t' := (Prod.mk.inj (hrun'.symm.trans hrun)).2
  refine ⟨⟨FileTree.ready_out, rfl⟩, t'', hrun,
    fun terms => exists_indicesFrom terms hfiles (by decide), fun s hs => ?_⟩
  obtain ⟨found, hfound, hfinds⟩ := hmatch s hs ⟨some 3, none, some 2⟩
  have hfilter : ([⟨3, 1, 2⟩, ⟨1, 1, 2⟩, ⟨3, 1, 2⟩] : List Triple).filter
      (Pattern.agrees ⟨some 3, none, some 2⟩) = List.replicate 2 ⟨3, 1, 2⟩ := by decide
  have hperm := hfinds.perm
  rw [hfilter] at hperm
  rw [List.perm_replicate.1 hperm] at hfound
  exact hfound

end Store

end TripleStore
