import TripleStore.Proofs.Composite.Build
import TripleStore.Proofs.Refusals

/-!
# What the second pass covers

Both passes may be used on after a visit that they refuse, so a build is told for any visits
(`Composite.session`). Writing succeeds exactly if the second pass took as many visits as the first
one. That does not tell which terms were visited: a term that is visited again can stand for one
that is left out (`loses_term_of_session`). The dictionary resolves the terms that the second pass
took, which are all of the first one exactly if each of them was visited again. This is so if the
second pass takes no term more often than the first one (`covers_of_session`).
-/

namespace TripleStore

open Build

/-- Makes calls on a builder, whatever they answer, and answers the builder after them. -/
def Disk.passing {ι σ α : Type} (call : ι → Build σ α) (items : List ι) (s : σ) : Disk σ :=
  ExceptT.mk fun t =>
    let (_, s, t) := each call items s t
    (.ok s, t)

theorem Disk.apply_passing {ι σ α : Type} {call : ι → Build σ α} {items : List ι} {s s' : σ}
    {t t' : FileTree} {log : List (ι × Result α)} (h : each call items s t = (log, s', t')) :
    (passing call items s).apply t = (.ok s', t') := by
  change ((.ok (each call items s t).2.1, (each call items s t).2.2) : Result σ × FileTree) = _
  rw [h]

/-! ## Passes that go on -/

namespace VocabularyBuilder

variable {settings : Settings} {fingerprint : String → UInt64} {folder : Path} {t : FileTree}
  {b : VocabularyBuilder} {terms : List String}

/-- A visit of the first pass takes its term, or is refused and changes nothing. -/
theorem visited_of_visit {log : List (String × Result Unit)} {term : String} {r : Result Unit}
    {b' : VocabularyBuilder} {t' : FileTree} (hs : t.Sound)
    (h : b.Visited settings fingerprint folder t (taken (fun _ => .invalid .codedTerm) log))
    (hbytes : term.utf8ByteSize < 2 ^ 63) (hcall : (visit term).apply b t = (r, b', t')) :
    b'.Visited settings fingerprint folder t'
      (taken (fun _ => .invalid .codedTerm) (log ++ [(term, r)])) ∧ t.Inside folder.place t' := by
  rw [taken_concat]
  cases hcoded : Code.looksCoded term.toUTF8 with
  | true =>
    rw [visit_of_looksCoded hcoded] at hcall
    obtain ⟨rfl, hrest⟩ := Prod.mk.inj hcall
    obtain ⟨rfl, rfl⟩ := Prod.mk.inj hrest
    rw [isTaken_error (fun _ => .invalid .codedTerm), if_neg Bool.false_ne_true, List.append_nil]
    exact ⟨h, .refl hs h.candidates.hasFolder.lookup_place⟩
  | false =>
    obtain ⟨b₁, t₁, hvisit, hvisited, hinside⟩ := visit_of_visited hs h hcoded hbytes
    obtain ⟨rfl, hrest⟩ := Prod.mk.inj (hcall.symm.trans hvisit)
    obtain ⟨rfl, rfl⟩ := Prod.mk.inj hrest
    exact ⟨hvisited, hinside⟩

/-- **A first pass over any terms has visited those that do not look coded.** -/
theorem each_visit_of_visited (hs : t.Sound) (h : b.Visited settings fingerprint folder t [])
    (hbytes : ∀ term ∈ terms, term.utf8ByteSize < 2 ^ 63) :
    ∃ log b' t', each visit terms b t = (log, b', t') ∧
      b'.Visited settings fingerprint folder t' (terms.filter (!Code.looksCoded ·.toUTF8)) ∧
      t.Inside folder.place t' := by
  rcases hrun : each visit terms b t with ⟨log, b', t'⟩
  obtain ⟨hvisited, hinside⟩ := of_each (P := fun log b' t' =>
      VocabularyBuilder.Visited settings fingerprint folder t' b'
        (taken (fun _ => .invalid .codedTerm) log) ∧ t.Inside folder.place t')
    (fun log term b₁ t₁ r b₂ t₂ hterm hP hcall => by
      obtain ⟨hvisited, hinside⟩ := visited_of_visit hP.2.sound hP.1 (hbytes term hterm) hcall
      exact ⟨hvisited, hP.2.trans hinside⟩)
    hrun ⟨h, .refl hs h.candidates.hasFolder.lookup_place⟩
  rw [(taken_of_each hrun).1] at hvisited
  exact ⟨log, b', t', rfl, hvisited, hinside⟩

end VocabularyBuilder

namespace CompositeBuilder

variable {settings : Settings} {fingerprint : String → UInt64} {folder : Path} {t : FileTree}
  {b : CompositeBuilder} {first terms : List String}

/-- A term is known by its fingerprint. -/
theorem mem_map_fingerprint (hinj : Set.InjOn fingerprint {term | term ∈ first ∨ term ∈ terms})
    {term : String} (hterm : term ∈ terms) :
    fingerprint term ∈ first.map fingerprint ↔ term ∈ first := by
  constructor
  · intro hmem
    obtain ⟨other, hother, heq⟩ := List.mem_map.1 hmem
    rwa [← hinj (.inl hother) (.inr hterm) heq]
  · exact List.mem_map_of_mem

/-- A visit of the second pass takes its term, or is refused and changes nothing. -/
theorem visited_of_visit {log : List (String × Result Unit)} {term : String} {r : Result Unit}
    {b' : CompositeBuilder} {t' : FileTree} (hs : t.Sound)
    (h : b.Visited settings fingerprint folder first t (taken .unseenTerm log))
    (hbytes : term.utf8ByteSize < 2 ^ 63)
    (hknown : fingerprint term ∈ first.map fingerprint ↔ term ∈ first)
    (hcall : (visit term).apply b t = (r, b', t')) :
    b'.Visited settings fingerprint folder first t' (taken .unseenTerm (log ++ [(term, r)])) ∧
      t.Inside folder.place t' := by
  rw [taken_concat]
  by_cases hseen : term ∈ first
  · obtain ⟨b₁, t₁, hvisit, hvisited, hinside⟩ := visit_of_visited hs h hseen hbytes
    obtain ⟨rfl, hrest⟩ := Prod.mk.inj (hcall.symm.trans hvisit)
    obtain ⟨rfl, rfl⟩ := Prod.mk.inj hrest
    exact ⟨hvisited, hinside⟩
  · rw [visit_of_unseen h fun hmem => hseen (hknown.1 hmem)] at hcall
    obtain ⟨rfl, hrest⟩ := Prod.mk.inj hcall
    obtain ⟨rfl, rfl⟩ := Prod.mk.inj hrest
    rw [isTaken_error .unseenTerm, if_neg Bool.false_ne_true, List.append_nil]
    exact ⟨h, .refl hs h.entries.hasFolder.lookup_place⟩

/-- **A second pass over any terms has visited those that the first pass took.** -/
theorem each_visit_of_visited (hs : t.Sound)
    (h : b.Visited settings fingerprint folder first t [])
    (hbytes : ∀ term ∈ terms, term.utf8ByteSize < 2 ^ 63)
    (hinj : Set.InjOn fingerprint {term | term ∈ first ∨ term ∈ terms}) :
    ∃ log b' t', each visit terms b t = (log, b', t') ∧
      b'.Visited settings fingerprint folder first t' (terms.filter (· ∈ first)) ∧
      t.Inside folder.place t' := by
  rcases hrun : each visit terms b t with ⟨log, b', t'⟩
  obtain ⟨hvisited, hinside⟩ := of_each (P := fun log b' t' =>
      CompositeBuilder.Visited settings fingerprint folder first t' b' (taken .unseenTerm log) ∧
        t.Inside folder.place t')
    (fun log term b₁ t₁ r b₂ t₂ hterm hP hcall => by
      obtain ⟨hvisited, hinside⟩ := visited_of_visit hP.2.sound hP.1 (hbytes term hterm)
        (mem_map_fingerprint hinj hterm) hcall
      exact ⟨hvisited, hP.2.trans hinside⟩)
    hrun ⟨h, .refl hs h.entries.hasFolder.lookup_place⟩
  have htaken : taken .unseenTerm log = terms.filter (· ∈ first) := by
    rw [(taken_of_each hrun).1]
    refine List.filter_congr ?_
    intro term hterm
    rw [Bool.eq_iff_iff, h.fingerprint_eq, h.seen, mem_map_fingerprint hinj hterm,
      decide_eq_true_iff]
  rw [htaken] at hvisited
  exact ⟨log, b', t', rfl, hvisited, hinside⟩

end CompositeBuilder

namespace Composite

/-- The terms that a first pass takes. -/
def accepted (first : List String) : List String :=
  first.filter (!Code.looksCoded ·.toUTF8)

/-- The visits that a second pass takes. -/
def revisited (first second : List String) : List String :=
  second.filter (· ∈ accepted first)

/-- A build whose passes go on after a visit that is refused. -/
def session (settings : Settings) (first second : List String) (target : Destination)
    (fingerprint : String → UInt64 := mixedFingerprint) : Disk CompositeStats := do
  let b ← VocabularyBuilder.create settings fingerprint
  let b ← Disk.passing VocabularyBuilder.visit first b
  let b ← b.freeze
  let b ← Disk.passing CompositeBuilder.visit second b
  b.write target

/-- A composite dictionary has an id for each of some terms, and reads the term back there. -/
def Covers (c : Composite) (terms : List String) : Prop :=
  ∀ term ∈ terms, ∃ id, c.find term = .ok id ∧ id ≠ 0 ∧ c.get id = .ok term

theorem covers_iff {c : Composite} {terms : List String} {held : Finset String}
    (h : c.Resolves held) : c.Covers terms ↔ ∀ term ∈ terms, term ∈ held := by
  constructor
  · intro hcovers term hterm
    obtain ⟨id, hfind, hne, -⟩ := hcovers term hterm
    by_contra habsent
    rw [h.absent term habsent] at hfind
    exact hne (Except.ok.inj hfind).symm
  · intro hheld term hterm
    obtain ⟨id, hfind, hpos, -, hget⟩ := h.find term (hheld term hterm)
    exact ⟨id, hfind, Nat.pos_iff_ne_zero.1 hpos, hget⟩

variable {first second : List String} {term : String}

theorem looksCoded_of_mem_accepted (h : term ∈ accepted first) :
    Code.looksCoded term.toUTF8 = false := by
  simpa using (List.mem_filter.1 h).2

theorem mem_revisited : term ∈ revisited first second ↔ term ∈ second ∧ term ∈ accepted first := by
  rw [revisited, List.mem_filter, decide_eq_true_iff]

/-- As many visits as in the first pass, none of a term more often than there, leave no term out. -/
theorem mem_revisited_of_count (hlength : (revisited first second).length = (accepted first).length)
    (hcount : ∀ term, (revisited first second).count term ≤ (accepted first).count term)
    (hterm : term ∈ accepted first) : term ∈ revisited first second := by
  have hsubperm : (revisited first second).Subperm (accepted first) :=
    List.subperm_ext_iff.2 fun term _ => hcount term
  exact (hsubperm.perm_of_length_le hlength.ge).mem_iff.2 hterm

section

variable {settings : Settings} {fingerprint : String → UInt64} {t : FileTree} (target : Destination)
  (hr : t.Ready settings.workPath target.path) (hc : settings.compressRuns = false)
  (hbytes : ∀ term ∈ first ++ second, term.utf8ByteSize < 2 ^ 63)
  (hinj : Set.InjOn fingerprint {term | term ∈ accepted first ++ second})
  (hsmall : Small settings fingerprint (accepted first) (revisited first second))

include hr hc hbytes hinj hsmall

/-- A session comes to write what its passes took. -/
theorem session_eq_write :
    ∃ (name : String) (b : CompositeBuilder) (t₁ t₂ : FileTree), name ≠ ".." ∧
      t.Opened settings.workPath name t₁ ∧
      t₁.Inside (settings.workPath.place ++ [name]) t₂ ∧
      b.Visited settings fingerprint (settings.workPath.child name) (accepted first) t₂
        (revisited first second) ∧
      (session settings first second target fingerprint).apply t = (b.write target).apply t₂ := by
  obtain ⟨name, b₁, t₁, hcreate, hdots, ho, hvisited₁⟩ :=
    VocabularyBuilder.create_visited hr.sound hr.passable hc fingerprint
  obtain ⟨log₁, b₂, t₂, hfirst, hvisited₂, hin₂⟩ :=
    VocabularyBuilder.each_visit_of_visited ho.sound hvisited₁ fun term hterm =>
      hbytes term (List.mem_append_left _ hterm)
  obtain ⟨b₃, t₃, hfreeze, hvisited₃, hin₃⟩ :=
    VocabularyBuilder.freeze_of_visited hin₂.sound hvisited₂ hsmall.shared
  obtain ⟨log₂, b₄, t₄, hsecond, hvisited₄, hin₄⟩ :=
    CompositeBuilder.each_visit_of_visited hin₃.sound hvisited₃
      (fun term hterm => hbytes term (List.mem_append_right _ hterm))
      (hinj.mono fun term hterm => List.mem_append.2 hterm)
  have hin := (hin₂.trans hin₃).trans hin₄
  rw [Path.place_child _ hdots] at hin
  refine ⟨name, b₄, t₁, t₄, hdots, ho, hin, hvisited₄, ?_⟩
  rw [session, Disk.apply_bind_of_ok hcreate,
    Disk.apply_bind_of_ok (Disk.apply_passing hfirst), Disk.apply_bind_of_ok hfreeze,
    Disk.apply_bind_of_ok (Disk.apply_passing hsecond)]

/-- **A session whose passes took as many visits publishes the terms of the second one.** -/
theorem resolves_of_session (hlength : (revisited first second).length = (accepted first).length) :
    ∃ (stats : CompositeStats) (c : Composite) (t' : FileTree),
      (session settings first second target fingerprint).apply t = (.ok stats, t') ∧
      (openAt target.path).apply t' = (.ok c, t') ∧
      c.Resolves (revisited first second).toFinset := by
  obtain ⟨name, b, t₁, t₂, hdots, ho, hin, hvisited, hrun⟩ :=
    session_eq_write target hr hc hbytes hinj hsmall
  obtain ⟨stats, c, held, t', hwrite, hbuilt, -, hholds, hstored⟩ :=
    CompositeBuilder.write_of_visited hr hdots ho hin hvisited hlength hsmall
  have hresolves := resolves_of_holds hholds.shared hholds.entries fun term hterm =>
    looksCoded_of_mem_accepted (mem_revisited.1 hterm).2
  exact ⟨stats, c, t', hrun.trans hwrite, openAt_of_built hr hbuilt hstored, hresolves⟩

/-- A session whose passes took different numbers of visits is refused at its end. -/
theorem session_of_length_ne (hne : (revisited first second).length ≠ (accepted first).length) :
    ((session settings first second target fingerprint).apply t).1 =
      .error (.invalid .visitCount) := by
  obtain ⟨_, b, _, t₂, -, -, -, hvisited, hrun⟩ :=
    session_eq_write target hr hc hbytes hinj hsmall
  rw [hrun]
  exact CompositeBuilder.write_of_length_ne hvisited hne target

/-- **A session succeeds exactly if its passes took as many visits, and the published dictionary
covers the first pass exactly if the second one visited each of its terms.** It does so if the
second pass took no term more often than the first one, but not just because it took as many visits.
No text is as long as 2⁶³ bytes, and no two terms have the same fingerprint. -/
theorem covers_of_session :
    ((∃ stats t', (session settings first second target fingerprint).apply t = (.ok stats, t')) ↔
      (revisited first second).length = (accepted first).length) ∧
    ∀ stats t', (session settings first second target fingerprint).apply t = (.ok stats, t') →
      ∃ c, (openAt target.path).apply t' = (.ok c, t') ∧
        c.Resolves (revisited first second).toFinset ∧
        (c.Covers (accepted first) ↔ ∀ term ∈ accepted first, term ∈ second) ∧
        ((∀ term, (revisited first second).count term ≤ (accepted first).count term) →
          c.Covers (accepted first)) := by
  have hlength : ∀ stats t',
      (session settings first second target fingerprint).apply t = (.ok stats, t') →
        (revisited first second).length = (accepted first).length := by
    intro stats t' hrun
    by_contra hne
    have herror := session_of_length_ne target hr hc hbytes hinj hsmall hne
    rw [hrun] at herror
    cases herror
  refine ⟨⟨?_, fun heq => ?_⟩, ?_⟩
  · rintro ⟨stats, t', hrun⟩
    exact hlength stats t' hrun
  · obtain ⟨stats, -, t', hrun, -⟩ :=
      resolves_of_session target hr hc hbytes hinj hsmall heq
    exact ⟨stats, t', hrun⟩
  · intro stats t' hrun
    have heq := hlength stats t' hrun
    obtain ⟨_, c, _, hrun', hopen, hresolves⟩ :=
      resolves_of_session target hr hc hbytes hinj hsmall heq
    obtain ⟨-, rfl⟩ := Prod.mk.inj (hrun.symm.trans hrun')
    refine ⟨c, hopen, hresolves, ?_, fun hcount => ?_⟩
    · rw [covers_iff hresolves]
      refine forall₂_congr fun term hterm => ?_
      rw [List.mem_toFinset, mem_revisited, and_iff_left hterm]
    · rw [covers_iff hresolves]
      intro term hterm
      rw [List.mem_toFinset]
      exact mem_revisited_of_count heq hcount hterm

end

/-- The first pass refuses a term that looks coded, the second one a term that the first one did not
see, and visits the others in another order. -/
theorem covers_of_session_reordered :
    (FileTree.empty.Ready Settings.default.workPath ⟨true, ["out"], .name⟩ ∧
      Set.InjOn mixedFingerprint {term | term ∈
        accepted ["<http://a/b>", "AAAA.", "<http://a/c>"] ++
          ["<http://a/c>", "<http://a/d>", "<http://a/b>"]} ∧
      Small Settings.default mixedFingerprint (accepted ["<http://a/b>", "AAAA.", "<http://a/c>"])
        (revisited ["<http://a/b>", "AAAA.", "<http://a/c>"]
          ["<http://a/c>", "<http://a/d>", "<http://a/b>"])) ∧
    ∃ (stats : CompositeStats) (c : Composite) (t' : FileTree),
      (session Settings.default ["<http://a/b>", "AAAA.", "<http://a/c>"]
        ["<http://a/c>", "<http://a/d>", "<http://a/b>"] ⟨⟨true, ["out"], .name⟩, "/out"⟩).apply
          FileTree.empty = (.ok stats, t') ∧
      (openAt ⟨true, ["out"], .name⟩).apply t' = (.ok c, t') ∧
      c.Covers ["<http://a/b>", "<http://a/c>"] := by
  have haccepted : accepted ["<http://a/b>", "AAAA.", "<http://a/c>"] =
      ["<http://a/b>", "<http://a/c>"] := by decide
  have hrevisited : revisited ["<http://a/b>", "AAAA.", "<http://a/c>"]
      ["<http://a/c>", "<http://a/d>", "<http://a/b>"] = ["<http://a/c>", "<http://a/b>"] := by
    decide
  have hinj : Set.InjOn mixedFingerprint {term | term ∈
      accepted ["<http://a/b>", "AAAA.", "<http://a/c>"] ++
        ["<http://a/c>", "<http://a/d>", "<http://a/b>"]} := by
    rw [haccepted]
    exact injOn_of_forall (by decide) fun _ => id
  have hsmall : Small Settings.default mixedFingerprint
      (accepted ["<http://a/b>", "AAAA.", "<http://a/c>"])
      (revisited ["<http://a/b>", "AAAA.", "<http://a/c>"]
        ["<http://a/c>", "<http://a/d>", "<http://a/b>"]) := by
    rw [haccepted, hrevisited]
    exact small_of_sum (by decide) (by decide)
  obtain ⟨hwritten, hcovers⟩ := covers_of_session ⟨⟨true, ["out"], .name⟩, "/out"⟩
    FileTree.ready_out rfl (by decide) hinj hsmall
  obtain ⟨stats, t', hrun⟩ := hwritten.2 (by rw [haccepted, hrevisited]; rfl)
  obtain ⟨c, hopen, -, hiff, -⟩ := hcovers stats t' hrun
  rw [haccepted] at hiff
  exact ⟨⟨FileTree.ready_out, hinj, hsmall⟩, stats, c, t', hrun, hopen, hiff.2 (by decide)⟩

/-- **A visit made again stands for one left out**: two terms are visited by the first pass, and one
of them twice by the second pass. The session succeeds, and the other term is lost. -/
theorem loses_term_of_session :
    ∃ (stats : CompositeStats) (c : Composite) (t' : FileTree),
      (session Settings.default ["<http://a/b>", "<http://a/c>"] ["<http://a/b>", "<http://a/b>"]
        ⟨⟨true, ["out"], .name⟩, "/out"⟩).apply FileTree.empty = (.ok stats, t') ∧
      (openAt ⟨true, ["out"], .name⟩).apply t' = (.ok c, t') ∧
      accepted ["<http://a/b>", "<http://a/c>"] = ["<http://a/b>", "<http://a/c>"] ∧
      c.find "<http://a/c>" = .ok 0 ∧ ¬ c.Covers ["<http://a/b>", "<http://a/c>"] := by
  have haccepted :
      accepted ["<http://a/b>", "<http://a/c>"] = ["<http://a/b>", "<http://a/c>"] := by decide
  have hrevisited : revisited ["<http://a/b>", "<http://a/c>"] ["<http://a/b>", "<http://a/b>"] =
      ["<http://a/b>", "<http://a/b>"] := by decide
  have hinj : Set.InjOn mixedFingerprint {term | term ∈
      accepted ["<http://a/b>", "<http://a/c>"] ++ ["<http://a/b>", "<http://a/b>"]} := by
    rw [haccepted]
    exact injOn_of_forall (by decide) fun _ => id
  have hsmall : Small Settings.default mixedFingerprint (accepted ["<http://a/b>", "<http://a/c>"])
      (revisited ["<http://a/b>", "<http://a/c>"] ["<http://a/b>", "<http://a/b>"]) := by
    rw [haccepted, hrevisited]
    exact small_of_sum (by decide) (by decide)
  obtain ⟨stats, c, t', hrun, hopen, hresolves⟩ :=
    resolves_of_session ⟨⟨true, ["out"], .name⟩, "/out"⟩ FileTree.ready_out rfl (by decide) hinj
      hsmall (by rw [haccepted, hrevisited]; rfl)
  rw [hrevisited] at hresolves
  refine ⟨stats, c, t', hrun, hopen, haccepted, hresolves.absent _ (by decide), ?_⟩
  rw [covers_iff hresolves]
  decide

end Composite

end TripleStore
