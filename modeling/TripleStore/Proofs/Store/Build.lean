import TripleStore.Proofs.Composite.Build
import TripleStore.Proofs.Staging
import TripleStore.Proofs.TripleIndex.Build
import TripleStore.Store.Build

/-!
# Building stores

Whether a store is built is decided by the three readings of its source alone (`Store.verdict`), and
in the order in which the readings come, wherever the path of the destination is direct; at other
destinations no build succeeds (`Store.build_eq_verdict`). A store that is built opens; its terms
are those of the second reading, and each of its indices lists the triples of the third one
(`Store.opens_of_verdict`).
-/

namespace TripleStore

/-! ## Ids of terms -/

/-- The id under which a term is found. -/
def Composite.idOf (c : Composite) (term : String) : Nat :=
  match c.find term with
  | .ok id => id
  | .error _ => 0

/-- The id of a term that is resolved. -/
theorem Composite.Resolves.idOf {c : Composite} {terms : Finset String} (h : c.Resolves terms)
    {term : String} (hterm : term ∈ terms) : c.find term = .ok (c.idOf term) ∧ c.idOf term ≠ 0 ∧
      c.idOf term < limit64 ∧ c.get (c.idOf term) = .ok term := by
  obtain ⟨id, hfind, hpos, hle, hget⟩ := h.find term hterm
  have hid : c.idOf term = id := by rw [Composite.idOf, hfind]
  have hcount : c.count < limit64 := UInt64.toNat_lt _
  rw [hid]
  refine ⟨hfind, by omega, ?_, hget⟩
  rw [h.count] at hcount
  omega

namespace Store

variable {c : Composite} {terms : Finset String} {term : String}

theorem resolve_of_mem (h : c.Resolves terms) (hterm : term ∈ terms) :
    resolve c term = .ok (UInt64.ofNat (c.idOf term)) := by
  obtain ⟨hfind, hne, -, -⟩ := h.idOf hterm
  exact bind_eq_ok.2 ⟨_, hfind, bind_eq_ok.2 ⟨(), require_eq_ok.2 hne, rfl⟩⟩

theorem resolve_of_notMem (h : c.Resolves terms) (hterm : term ∉ terms) :
    resolve c term = .error (.unseenTerm term) := by
  rw [resolve, h.absent term hterm]
  rfl

/-- The ids of a triple of terms. -/
def idsOf (c : Composite) (t : TermTriple) : Triple where
  subject := UInt64.ofNat (c.idOf t.subject)
  predicate := UInt64.ofNat (c.idOf t.predicate)
  object := UInt64.ofNat (c.idOf t.object)

/-- A triple of terms is resolved if all of them are; else its first unknown term is reported. -/
theorem resolveTriple_eq (h : c.Resolves terms) (t : TermTriple) : resolveTriple c t = (do
    t.terms.forM fun term => require (term ∈ terms) (.unseenTerm term)
    return idsOf c t) := by
  have hresolve : ∀ term, resolve c term = (do
      require (term ∈ terms) (.unseenTerm term)
      return UInt64.ofNat (c.idOf term)) := fun term => by
    by_cases hterm : term ∈ terms
    · rw [resolve_of_mem h hterm, require, if_pos hterm]
      rfl
    · rw [resolve_of_notMem h hterm, require, if_neg hterm]
      rfl
  simp only [resolveTriple, hresolve, TermTriple.terms, List.forM_eq_forM, List.forM_cons,
    List.forM_nil, bind_assoc, pure_bind]
  rfl

/-- The terms of a triple of ids. -/
def spell (s : Store) (t : Triple) : Result TermTriple := do
  let subject ← s.term t.subject.toNat
  let predicate ← s.term t.predicate.toNat
  let object ← s.term t.object.toNat
  return ⟨subject, predicate, object⟩

/-- Ids are read back as the terms they stand for. -/
theorem spell_idsOf {s : Store} (h : s.terms.Resolves terms) {t : TermTriple}
    (ht : ∀ term ∈ t.terms, term ∈ terms) : s.spell (idsOf s.terms t) = .ok t := by
  have hterm : ∀ term ∈ t.terms, s.term (UInt64.ofNat (s.terms.idOf term)).toNat = .ok term := by
    intro term hmem
    obtain ⟨-, -, hlt, hget⟩ := h.idOf (ht term hmem)
    have hid : (UInt64.ofNat (s.terms.idOf term)).toNat = s.terms.idOf term :=
      UInt64.toNat_ofNat'.trans (Nat.mod_eq_of_lt hlt)
    rw [hid]
    exact hget
  exact bind_eq_ok.2 ⟨_, hterm _ (by simp [TermTriple.terms]), bind_eq_ok.2
    ⟨_, hterm _ (by simp [TermTriple.terms]), bind_eq_ok.2
      ⟨_, hterm _ (by simp [TermTriple.terms]), rfl⟩⟩⟩

/-! ## The third reading -/

/-- The check that each term is known, which fails at the first one that is not. -/
def checkTerms (terms : Finset String) (triples : List TermTriple) : Result Unit :=
  (triples.flatMap (·.terms)).forM fun term => require (term ∈ terms) (.unseenTerm term)

theorem checkTerms_cons (t : TermTriple) (triples : List TermTriple) :
    checkTerms terms (t :: triples) = (do
      t.terms.forM fun term => require (term ∈ terms) (.unseenTerm term)
      checkTerms terms triples) := by
  rw [checkTerms, List.flatMap_cons]
  exact List.forM_append

variable {folder : Path} {t t' : FileTree} {b : IndexBuilder} {triples : List TermTriple}

/-- A triple of known terms is added as their ids. -/
theorem addResolved_of_known (h : c.Resolves terms) {triple : TermTriple}
    (hknown : ∀ term ∈ triple.terms, term ∈ terms) (b : IndexBuilder) (t : FileTree) :
    (addResolved c triple).apply b t = (IndexBuilder.add (idsOf c triple)).apply b t := by
  have hresolve : resolveTriple c triple = .ok (idsOf c triple) := by
    rw [resolveTriple_eq h]
    exact bind_eq_ok.2 ⟨(), forM_require_eq_ok.2 hknown, rfl⟩
  rw [addResolved, hresolve, Build.apply_bind_of_ok (Build.apply_ofResult _ b t)]

/-- Triples are added up to the first unknown term. -/
theorem fst_forM_addResolved (h : c.Resolves terms) {e : StoreError} {held : List Triple}
    (hs : t.Sound) (hb : b.Held folder t held) (he : checkTerms terms triples = .error e) :
    ((triples.forM (addResolved c)).apply b t).1 = .error e := by
  induction triples generalizing b t held with
  | nil => cases he
  | cons triple triples ih =>
    rw [checkTerms_cons] at he
    change ((addResolved c triple >>= fun _ => triples.forM (addResolved c)).apply b t).1 = _
    cases hcheck : triple.terms.forM fun term => require (term ∈ terms) (.unseenTerm term) with
    | ok u =>
      obtain ⟨b', t', hadd, hheld, hinside⟩ := IndexBuilder.add_of_held hs hb (idsOf c triple)
      have hknown := forM_require_eq_ok.1 hcheck
      rw [Build.apply_bind_of_ok ((addResolved_of_known h hknown b t).trans hadd)]
      rw [hcheck] at he
      exact ih hinside.sound hheld he
    | error e' =>
      rw [hcheck] at he
      obtain rfl : e' = e := Except.error.inj he
      have hresolve : resolveTriple c triple = .error e' := by
        rw [resolveTriple_eq h, hcheck]
        rfl
      refine Build.apply_bind_of_error ?_
      rw [addResolved, hresolve]
      exact Build.apply_bind_of_error (by rw [Build.apply_ofResult])

variable {settings : Settings} {target : Destination}

/-- **The indices of triples of known terms are built.** -/
theorem buildTriples_of_known (h : c.Resolves terms) (hr : t.Ready settings.workPath target.path)
    (hc : settings.compressRuns = false)
    (hknown : ∀ triple ∈ triples, ∀ term ∈ triple.terms, term ∈ terms) :
    ∃ held t', (buildTriples settings c triples target).apply t = (.ok triples.length, t') ∧
      t.Built settings.workPath target.path held t' ∧
      IndexBuilder.Files (triples.map (idsOf c)) held := by
  obtain ⟨name, b, t₁, hcreate, hdots, ho, hheld⟩ :=
    IndexBuilder.create_held hr.sound hr.passable hc
  obtain ⟨b', t₂, hadd, hheld', hinside⟩ := IndexBuilder.forM_of_held ho.sound hheld
    fun triple hmem => addResolved_of_known h (hknown triple hmem)
  rw [Path.place_child _ hdots] at hinside
  obtain ⟨held, t', hwrite, hbuilt, hfiles⟩ :=
    IndexBuilder.write_of_held hr hdots ho hinside hheld'
  refine ⟨held, t', ?_, hbuilt, hfiles⟩
  rw [buildTriples, Disk.apply_bind_of_ok hcreate,
    Disk.apply_bind_of_ok (Workspace.apply_guarding _ (Disk.apply_build hadd)), hwrite,
    List.length_map]

/-- **A build of indices fails at the first unknown term.** -/
theorem fst_buildTriples {e : StoreError} (h : c.Resolves terms)
    (hr : t.Ready settings.workPath target.path) (hc : settings.compressRuns = false)
    (he : checkTerms terms triples = .error e) :
    ((buildTriples settings c triples target).apply t).1 = .error e := by
  obtain ⟨name, b, t₁, hcreate, -, ho, hheld⟩ :=
    IndexBuilder.create_held hr.sound hr.passable hc
  rw [buildTriples, Disk.apply_bind_of_ok hcreate]
  refine Disk.apply_bind_of_error ?_
  rw [Workspace.guarding, Disk.fst_apply_undoing]
  exact Disk.fst_apply_build (fst_forM_addResolved h ho.sound hheld he)

/-! ## Opening -/

/-- A directory holds the files of a store. -/
structure Stored (c : Composite) (triples : List Triple) (held : Place → Option Entry) : Prop where
  folder : held [] = some .directory
  terms : c.Stored fun rest => held (termsFolder :: rest)
  triples : IndexBuilder.Files triples fun rest => held (triplesFolder :: rest)

theorem openIndex_of_lookup {p : Path} {order : RoleOrder} {rows : List Row} (hf : t.HasFolder p)
    (h : ∃ content, t.lookup (p.place ++ [order.fileName]) = some (.file content) ∧
      TripleIndex.Filed content order rows)
    (hsize : ∀ content, t.load (p.child order.fileName) = .ok content → content.size < 2 ^ 63) :
    ∃ x, (openIndex p order).apply t = (.ok x, t) ∧ x.Answers rows := by
  obtain ⟨content, hfile, hfiled⟩ := h
  have hload : t.load (p.child order.fileName) = .ok content :=
    (FileTree.names_child hf order.fileName_ne_dots).load rfl
      (by rw [Path.place_child p order.fileName_ne_dots, hfile])
  obtain ⟨x, hopen, horder, -, hanswers⟩ := hfiled.stores (hsize content hload)
  refine ⟨x, ?_, hanswers⟩
  rw [openIndex, Disk.apply_bind_of_ok (Disk.apply_look hload), hopen,
    Disk.apply_bind_of_ok (Disk.apply_ofResult _ t), require, if_pos horder]
  rfl

/-- **A stored store is opened**, unless a file is too large. -/
theorem openAt_of_stored {p : Path} {held : List Triple} (hf : t.HasFolder p)
    (h : Stored c held fun rest => t.lookup (p.place ++ rest))
    (hsize : ∀ (order : RoleOrder) content,
      t.load ((p.child triplesFolder).child order.fileName) = .ok content →
        content.size < 2 ^ 63) :
    ∃ s, (openAt p).apply t = (.ok s, t) ∧ s.terms = c ∧
      ∀ order, (s.index order).Answers (Sorter.sorted (held.map (·.toRow order))) := by
  have hfolder : ∀ name, name ≠ ".." → t.lookup (p.place ++ [name]) = some .directory →
      t.HasFolder (p.child name) := fun name hname hdir =>
    (FileTree.hasFolder_child hname).2 ⟨hf, hdir⟩
  have hterms : (Composite.openAt (p.child termsFolder)).apply t = (.ok c, t) := by
    refine Composite.openAt_of_stored (hfolder _ (by decide) h.terms.folder) ?_
    simp only [Path.place_child_append p (by decide : termsFolder ≠ "..")]
    exact h.terms
  have hindex : ∀ order, ∃ x, (openIndex (p.child triplesFolder) order).apply t = (.ok x, t) ∧
      x.Answers (Sorter.sorted (held.map (·.toRow order))) := fun order => by
    refine openIndex_of_lookup (hfolder _ (by decide) h.triples.1) ?_ (hsize order)
    rw [Path.place_child_append p (by decide : triplesFolder ≠ "..")]
    exact h.triples.2 order
  obtain ⟨spo, hspo, aspo⟩ := hindex .spo
  obtain ⟨pso, hpso, apso⟩ := hindex .pso
  obtain ⟨ops, hops, aops⟩ := hindex .ops
  have hcount : spo.count = pso.count ∧ spo.count = ops.count := by
    simp [aspo.count, apso.count, aops.count, Sorter.length_sorted]
  refine ⟨⟨c, spo, pso, ops⟩, ?_, rfl, fun order => by cases order <;> assumption⟩
  rw [openAt, Disk.apply_bind_of_ok hterms, Disk.apply_bind_of_ok hspo,
    Disk.apply_bind_of_ok hpso, Disk.apply_bind_of_ok hops, require, if_pos hcount]
  rfl

/-! ## The whole build -/

variable {source : TripleSource} {fingerprint : String → UInt64}

/-- What decides whether a store is built: the verdict on the terms of the first two readings, and
whether the third one has a term that the second one does not have. -/
def verdict (source : TripleSource) : Result Unit := do
  Composite.verdict (source.first.flatMap (·.terms)) (source.second.flatMap (·.terms))
  checkTerms (source.second.flatMap (·.terms)).toFinset source.third

theorem length_flatMap_terms (triples : List TermTriple) :
    (triples.flatMap (·.terms)).length = 3 * triples.length := by
  have hthree : ∀ triple : TermTriple, triple.terms.length = 3 := fun _ => rfl
  simp [List.length_flatMap, hthree, Nat.mul_comm]

/-- **Four conditions on the readings of a source.** -/
theorem verdict_eq_ok {u : Unit} : verdict source = .ok u ↔
    (∀ term ∈ source.first.flatMap (·.terms), Code.looksCoded term.toUTF8 = false) ∧
    (∀ term ∈ source.second.flatMap (·.terms), term ∈ source.first.flatMap (·.terms)) ∧
    source.second.length = source.first.length ∧
    ∀ term ∈ source.third.flatMap (·.terms), term ∈ source.second.flatMap (·.terms) := by
  have hthree : ∀ m n : Nat, 3 * m = 3 * n ↔ m = n := by omega
  rw [verdict, bind_eq_ok]
  simp only [Composite.verdict_eq_ok, checkTerms, forM_require_eq_ok, exists_const,
    length_flatMap_terms, hthree, List.mem_toFinset, and_assoc]

variable {folder : Destination}

section

variable (hroom : t.Room settings.workPath folder.path []) (hc : settings.compressRuns = false)
  (hbytes : ∀ term ∈ source.first.flatMap (·.terms), term.utf8ByteSize < 2 ^ 63)
  (hsmall : Composite.Small settings fingerprint (source.first.flatMap (·.terms))
    (source.second.flatMap (·.terms)))

include hroom hc hbytes hsmall

/-- The dictionary of a store is built first, and opened. -/
theorem buildTerms_of_room
    (hv : Composite.verdict (source.first.flatMap (·.terms)) (source.second.flatMap (·.terms)) =
      .ok ()) :
    ∃ stats c t',
      (buildTerms settings source (folder.child termsFolder) fingerprint).apply t =
        (.ok stats, t') ∧
      (Composite.openAt (folder.path.child termsFolder)).apply t' = (.ok c, t') ∧
      t'.Room settings.workPath folder.path [termsFolder] ∧
      t.Filled settings.workPath folder.path t' ∧
      c.Resolves (source.second.flatMap (·.terms)).toFinset ∧
      c.Stored fun rest => t'.lookup (folder.path.place ++ termsFolder :: rest) := by
  obtain ⟨hplain, hseen, hlength⟩ := Composite.verdict_eq_ok.1 hv
  have hready : t.Ready settings.workPath (folder.child termsFolder).path :=
    hroom.ready (by simp) (by decide) (by decide)
  obtain ⟨stats, c, held, t', hrun, hbuilt, hstored, hresolves⟩ :=
    Composite.built_of_ready hready hc hplain hbytes hseen hlength hsmall
  have hsame : (fun rest => t'.lookup (folder.path.place ++ termsFolder :: rest)) = held :=
    funext fun rest => by
      rw [← Path.place_child_append _ (by decide : termsFolder ≠ "..")]
      exact hbuilt.inside rest
  have hopen := Composite.openAt_of_built hready hbuilt hstored
  have hroom' := hroom.of_built (by decide) hbuilt
  have hfilled := hroom.filled_of_built (by decide) hbuilt
  refine ⟨stats, c, t', hrun, hopen, hroom', hfilled, hresolves, ?_⟩
  rwa [hsame]

/-- **The parts of a store are built where there is room for them.** -/
theorem buildParts_of_room (hv : verdict source = .ok ()) :
    ∃ stats used t', (buildParts settings source folder fingerprint).apply t = (.ok stats, t') ∧
      t'.Room settings.workPath folder.path used ∧ t.Filled settings.workPath folder.path t' ∧
      ∃ c : Composite, c.Resolves (source.second.flatMap (·.terms)).toFinset ∧
        Stored c (source.third.map (idsOf c)) fun rest =>
          t'.lookup (folder.path.place ++ rest) := by
  obtain ⟨_, hterms, hcheck⟩ := bind_eq_ok.1 hv
  obtain ⟨stats, c, t₁, hrun, hopen, hroom₁, hfilled, hresolves, hstored⟩ :=
    buildTerms_of_room hroom hc hbytes hsmall hterms
  have hready₁ : t₁.Ready settings.workPath (folder.child triplesFolder).path :=
    hroom₁.ready (by decide) (by decide) (by decide)
  obtain ⟨held, t₂, hrun₁, hbuilt, hfiles⟩ := buildTriples_of_known hresolves hready₁ hc
    fun triple htriple term hterm => forM_require_eq_ok.1 hcheck term
      (List.mem_flatMap.2 ⟨triple, htriple, hterm⟩)
  have hroom₂ := hroom₁.of_built (by decide) hbuilt
  refine ⟨⟨stats, source.third.length⟩, _, t₂, ?_, hroom₂,
    hfilled.trans (hroom₁.filled_of_built (by decide) hbuilt), c, hresolves, ?_, ?_, ?_⟩
  · rw [buildParts, Disk.apply_bind_of_ok hrun, Disk.apply_bind_of_ok hopen,
      Disk.apply_bind_of_ok hrun₁]
    rfl
  · rw [List.append_nil]
    exact hroom₂.hasFolder.lookup_place
  · have hsame : ∀ rest, t₂.lookup (folder.path.place ++ termsFolder :: rest) =
        t₁.lookup (folder.path.place ++ termsFolder :: rest) :=
      hroom₁.lookup_beside (by decide) hbuilt (by decide)
    rwa [funext hsame]
  · have hsame : (fun rest => t₂.lookup (folder.path.place ++ triplesFolder :: rest)) = held :=
      funext fun rest => by
        rw [← Path.place_child_append _ (by decide : triplesFolder ≠ "..")]
        exact hbuilt.inside rest
    rwa [hsame]

/-- **The parts of a store are not built if the verdict is against it.** -/
theorem fst_buildParts {e : StoreError}
    (hinj : Set.InjOn fingerprint {term | term ∈ source.first.flatMap (·.terms) ∨
      term ∈ source.second.flatMap (·.terms)})
    (he : verdict source = .error e) :
    ((buildParts settings source folder fingerprint).apply t).1 = .error e := by
  rw [buildParts]
  cases hterms : Composite.verdict (source.first.flatMap (·.terms))
      (source.second.flatMap (·.terms)) with
  | error e' =>
    rw [verdict, hterms] at he
    obtain rfl : e' = e := Except.error.inj he
    have hready : t.Ready settings.workPath (folder.child termsFolder).path :=
      hroom.ready (by simp) (by decide) (by decide)
    exact Disk.apply_bind_of_error
      (Composite.fst_build_of_verdict hready hc hbytes hinj hsmall hterms)
  | ok u =>
    rw [verdict, hterms] at he
    obtain ⟨stats, c, t₁, hrun, hopen, hroom₁, -, hresolves, -⟩ :=
      buildTerms_of_room hroom hc hbytes hsmall hterms
    have hready₁ : t₁.Ready settings.workPath (folder.child triplesFolder).path :=
      hroom₁.ready (by decide) (by decide) (by decide)
    rw [Disk.apply_bind_of_ok hrun, Disk.apply_bind_of_ok hopen]
    exact Disk.apply_bind_of_error (fst_buildTriples hresolves hready₁ hc he)

end

/-- **A store is built if the verdict is for it.** -/
theorem built_of_verdict (hr : t.Ready settings.workPath target.path)
    (hc : settings.compressRuns = false)
    (hbytes : ∀ term ∈ source.first.flatMap (·.terms), term.utf8ByteSize < 2 ^ 63)
    (hsmall : Composite.Small settings fingerprint (source.first.flatMap (·.terms))
      (source.second.flatMap (·.terms)))
    (hv : verdict source = .ok ()) :
    ∃ stats held t', (build settings source target fingerprint).apply t = (.ok stats, t') ∧
      t.Built settings.workPath target.path held t' ∧
      ∃ c : Composite, c.Resolves (source.second.flatMap (·.terms)).toFinset ∧
        Stored c (source.third.map (idsOf c)) held :=
  Disk.staged_of_room
    (R := fun _ held => ∃ c : Composite,
      c.Resolves (source.second.flatMap (·.terms)).toFinset ∧
        Stored c (source.third.map (idsOf c)) held)
    hr fun _ _ _ hroom => buildParts_of_room hroom hc hbytes hsmall hv

/-- The triples of an index are those that were read, in another order. -/
theorem perm_spell {s : Store} (h : s.terms.Resolves terms)
    (hknown : ∀ triple ∈ triples, ∀ term ∈ triple.terms, term ∈ terms) (order : RoleOrder) :
    ((Sorter.sorted ((triples.map (idsOf s.terms)).map (·.toRow order))).map
      fun row => s.spell (row.toTriple order)).Perm (triples.map .ok) := by
  have hperm := (Sorter.sorted_perm ((triples.map (idsOf s.terms)).map (·.toRow order))).map
    fun row => s.spell (row.toTriple order)
  refine hperm.trans (List.Perm.of_eq ?_)
  rw [List.map_map, List.map_map]
  refine List.map_congr_left fun triple htriple => ?_
  rw [Function.comp_apply, Function.comp_apply, Triple.toTriple_toRow]
  exact spell_idsOf h (hknown triple htriple)

/-- **A store is built and opens if the verdict is for it**: it resolves the terms of the second
reading, and each of its indices answers for the triples of the third one. -/
theorem opens_of_verdict (hr : t.Ready settings.workPath target.path)
    (hc : settings.compressRuns = false)
    (hbytes : ∀ term ∈ source.first.flatMap (·.terms), term.utf8ByteSize < 2 ^ 63)
    (hsmall : Composite.Small settings fingerprint (source.first.flatMap (·.terms))
      (source.second.flatMap (·.terms)))
    (hv : verdict source = .ok ()) :
    ∃ stats t', (build settings source target fingerprint).apply t = (.ok stats, t') ∧
      ((∀ (order : RoleOrder) content,
        t'.load ((target.path.child triplesFolder).child order.fileName) = .ok content →
          content.size < 2 ^ 63) →
      ∃ s, (openAt target.path).apply t' = (.ok s, t') ∧
        s.terms.Resolves (source.second.flatMap (·.terms)).toFinset ∧
        ∀ order, ∃ rows, (s.index order).Answers rows ∧
          (rows.map fun row => s.spell (row.toTriple order)).Perm (source.third.map .ok)) := by
  obtain ⟨stats, held, t', hbuild, hbuilt, c, hresolves, hstored⟩ :=
    built_of_verdict hr hc hbytes hsmall hv
  refine ⟨stats, t', hbuild, fun hsize => ?_⟩
  obtain ⟨s, hopen, rfl, hanswers⟩ := openAt_of_stored (hbuilt.hasFolder hr hstored.folder)
    (funext hbuilt.inside ▸ hstored) hsize
  refine ⟨s, hopen, hresolves, fun order => ⟨_, hanswers order, perm_spell hresolves ?_ order⟩⟩
  obtain ⟨-, -, -, hknown⟩ := verdict_eq_ok.1 hv
  exact fun triple htriple term hterm =>
    List.mem_toFinset.2 (hknown term (List.mem_flatMap.2 ⟨triple, htriple, hterm⟩))

/-- **The readings of a source decide a build, where the path of the destination is direct**: it
ends in a name of its own and does not lead through the destination. The build then succeeds exactly
if no term of the first reading looks coded, the second reading has only terms of the first one and
as many triples, and the third one has only terms of the second one; the error is that of the first
of these conditions to fail, at the first term that makes it fail.

At all other destinations the conditions fail with the same errors, but where they hold the build
fails as well, although the destination is absent or an empty directory. What is staged stands in
the destination (`.`, see `refuses_current_directory`), or cannot be moved to its path (`d/.`), or
is reached through it (`d/../d`), which is removed before.

What is built opens as a store that resolves exactly the terms of the second reading, and each of
its indices answers for the triples of the third one. No text is as long as 2⁶³ bytes. -/
theorem build_eq_verdict (hp : t.Permits settings.workPath target.path)
    (hc : settings.compressRuns = false)
    (hbytes : ∀ term ∈ source.first.flatMap (·.terms), term.utf8ByteSize < 2 ^ 63)
    (hinj : Set.InjOn fingerprint {term | term ∈ source.first.flatMap (·.terms) ∨
      term ∈ source.second.flatMap (·.terms)})
    (hsmall : Composite.Small settings fingerprint (source.first.flatMap (·.terms))
      (source.second.flatMap (·.terms))) :
    (target.path.IsDirect →
      (((build settings source target fingerprint).apply t).1.map fun _ => ()) = verdict source) ∧
    ((∃ stats t', (build settings source target fingerprint).apply t = (.ok stats, t')) ↔
      target.path.IsDirect ∧
      (∀ term ∈ source.first.flatMap (·.terms), Code.looksCoded term.toUTF8 = false) ∧
      (∀ term ∈ source.second.flatMap (·.terms), term ∈ source.first.flatMap (·.terms)) ∧
      source.second.length = source.first.length ∧
      ∀ term ∈ source.third.flatMap (·.terms), term ∈ source.second.flatMap (·.terms)) ∧
    (∀ e, verdict source = .error e →
      ((build settings source target fingerprint).apply t).1 = .error e) ∧
    ∀ stats t', (build settings source target fingerprint).apply t = (.ok stats, t') →
      (∀ (order : RoleOrder) content,
        t'.load ((target.path.child triplesFolder).child order.fileName) = .ok content →
          content.size < 2 ^ 63) →
      ∃ s, (openAt target.path).apply t' = (.ok s, t') ∧
        s.terms.Resolves (source.second.flatMap (·.terms)).toFinset ∧
        ∀ order, ∃ rows, (s.index order).Answers rows ∧
          (rows.map fun row => s.spell (row.toTriple order)).Perm (source.third.map .ok) := by
  rw [← verdict_eq_ok (u := ())]
  have hopens := fun (hd : target.path.IsDirect) (hv : verdict source = .ok ()) =>
    opens_of_verdict ⟨hp, hd⟩ hc hbytes hsmall hv
  have hfail : ∀ e, verdict source = .error e →
      ((build settings source target fingerprint).apply t).1 = .error e := fun e he =>
    Disk.fst_staged_of_room hp fun name t₁ _ hroom =>
      fst_buildParts hroom hc hbytes hsmall hinj he
  -- what succeeds was named directly and has the verdict for it
  have hsucceeds : ∀ stats t', (build settings source target fingerprint).apply t =
      (.ok stats, t') → target.path.IsDirect ∧ verdict source = .ok () := fun stats t' hrun => by
    refine ⟨Disk.isDirect_of_staged hp.sound hrun, ?_⟩
    cases hv : verdict source with
    | ok u => rfl
    | error e =>
      have := hfail e hv
      rw [hrun] at this
      cases this
  refine ⟨fun hd => ?_, ⟨fun ⟨stats, t', hrun⟩ => hsucceeds stats t' hrun, fun ⟨hd, hv⟩ => ?_⟩,
    hfail, fun stats t' hrun => ?_⟩
  · cases hv : verdict source with
    | error e => rw [hfail e hv]; rfl
    | ok u =>
      obtain ⟨stats, t', hrun, -⟩ := hopens hd hv
      rw [hrun]
      rfl
  · obtain ⟨stats, t', hrun, -⟩ := hopens hd hv
    exact ⟨stats, t', hrun⟩
  · obtain ⟨hd, hv⟩ := hsucceeds stats t' hrun
    obtain ⟨stats₁, t₁, hrun₁, hopen⟩ := hopens hd hv
    obtain ⟨-, rfl⟩ := Prod.mk.inj (hrun₁.symm.trans hrun)
    exact hopen

/-- Two triples over three terms. The second reading has them in the other order, and the third one
has one of them twice. -/
def swappedSource : TripleSource where
  first := [⟨"<a:s>", "<a:p>", "<a:o>"⟩, ⟨"<a:o>", "<a:p>", "<a:s>"⟩]
  second := [⟨"<a:o>", "<a:p>", "<a:s>"⟩, ⟨"<a:s>", "<a:p>", "<a:o>"⟩]
  third := [⟨"<a:o>", "<a:p>", "<a:s>"⟩, ⟨"<a:s>", "<a:p>", "<a:o>"⟩, ⟨"<a:o>", "<a:p>", "<a:s>"⟩]

/-- The swapped source is accepted. -/
theorem build_eq_verdict_swapped :
    ((FileTree.empty.Permits Settings.default.workPath ⟨true, ["out"], .name⟩ ∧
      Settings.default.compressRuns = false) ∧
      Set.InjOn mixedFingerprint {term | term ∈ swappedSource.first.flatMap (·.terms) ∨
        term ∈ swappedSource.second.flatMap (·.terms)} ∧
      Composite.Small Settings.default mixedFingerprint (swappedSource.first.flatMap (·.terms))
        (swappedSource.second.flatMap (·.terms))) ∧
    ∃ stats t', (build Settings.default swappedSource ⟨⟨true, ["out"], .name⟩, "/out"⟩
      mixedFingerprint).apply FileTree.empty = (.ok stats, t') := by
  have hinj : Set.InjOn mixedFingerprint {term | term ∈ swappedSource.first.flatMap (·.terms) ∨
      term ∈ swappedSource.second.flatMap (·.terms)} :=
    Composite.injOn_of_forall (by decide) fun _ => List.mem_append.2
  have hsmall : Composite.Small Settings.default mixedFingerprint
      (swappedSource.first.flatMap (·.terms)) (swappedSource.second.flatMap (·.terms)) :=
    Composite.small_of_sum (by decide) (by decide)
  exact ⟨⟨⟨FileTree.ready_out.toPermits, rfl⟩, hinj, hsmall⟩,
    (build_eq_verdict FileTree.ready_out.toPermits rfl (by decide) hinj hsmall).2.1.2
      ⟨FileTree.ready_out.toIsDirect, by decide⟩⟩

/-- One triple, which all three readings have. -/
def steadySource : TripleSource where
  first := [⟨"<a:s>", "<a:p>", "<a:o>"⟩]
  second := [⟨"<a:s>", "<a:p>", "<a:o>"⟩]
  third := [⟨"<a:s>", "<a:p>", "<a:o>"⟩]

/-- The working directory as a destination. -/
def currentDirectory : Destination := ⟨⟨false, [], .dot⟩, "."⟩

/-- **A build at the working directory is refused**, though that is empty and the verdict is for the
build: the directory that is staged for it stands in it. -/
theorem refuses_current_directory :
    ((FileTree.empty.Permits Settings.default.workPath currentDirectory.path ∧
      Settings.default.compressRuns = false) ∧
      Set.InjOn mixedFingerprint {term | term ∈ steadySource.first.flatMap (·.terms) ∨
        term ∈ steadySource.second.flatMap (·.terms)} ∧
      Composite.Small Settings.default mixedFingerprint (steadySource.first.flatMap (·.terms))
        (steadySource.second.flatMap (·.terms))) ∧
    verdict steadySource = .ok () ∧
    ((build Settings.default steadySource currentDirectory mixedFingerprint).apply
      FileTree.empty).1 = .error (.destinationExists ".") := by
  have hp : FileTree.empty.Permits Settings.default.workPath currentDirectory.path :=
    FileTree.permits_empty (by decide) (by decide) (by decide) (by decide)
  have hsmall : Composite.Small Settings.default mixedFingerprint
      (steadySource.first.flatMap (·.terms)) (steadySource.second.flatMap (·.terms)) :=
    Composite.small_of_sum (by decide) (by decide)
  have hv : verdict steadySource = .ok () := verdict_eq_ok.2 (by decide)
  refine ⟨⟨⟨hp, rfl⟩, Composite.injOn_of_forall (by decide) fun _ => List.mem_append.2, hsmall⟩,
    hv, ?_⟩
  obtain ⟨name, t₁, hdots, ho, happly⟩ :=
    Disk.apply_staged hp.sound (FileTree.passable_parent hp.noFile)
      fun folder => buildParts Settings.default steadySource folder mixedFingerprint
  let folder : Destination := ⟨currentDirectory.path.parent.child name, currentDirectory.text⟩
  have hroom₁ : t₁.Room Settings.default.workPath folder.path [] := hp.room hdots ho
  obtain ⟨stats, used, t₂, hrun, hroom, -⟩ :=
    buildParts_of_room hroom₁ rfl (by decide) hsmall hv
  -- the staged directory stands in the destination
  have hfull : t₂.lookup (currentDirectory.path.place ++ [name]) ≠ none := by
    have := hroom.hasFolder.lookup_place
    rw [Path.place_child _ hdots] at this
    exact fun hnone => by cases hnone.symm.trans this
  have hpublish : (Disk.publish folder.path currentDirectory).apply t₂ =
      (.error (.destinationExists "."), t₂) := Disk.publish_of_full rfl hfull
  rw [build, happly, Disk.fst_apply_undoing, Disk.apply_bind_of_ok hrun]
  exact Disk.apply_bind_of_error (by rw [hpublish])

end Store

end TripleStore
