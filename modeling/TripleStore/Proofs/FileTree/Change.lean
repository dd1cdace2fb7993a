import Mathlib.Data.List.Basic
import Mathlib.Data.List.Nodup
import Mathlib.Data.List.Perm.Subperm
import Std.Data.TreeMap.Lemmas
import Std.Data.String.ToNat
import TripleStore.Proofs.FileTree.Lookup

/-!
# Changing a tree

Each operation is known by the lookups of the changed tree. In a sound tree, what stands anywhere
stands in a directory (`FileTree.Sound`); every change keeps it so.
-/

namespace TripleStore.FileTree

variable {t : FileTree} {p : Path} {l q : Place} {e : Entry} {name : String}

/-! ## Single places -/

theorem compare_eq_eq : compare l q = .eq ↔ q = l := by
  rw [Std.LawfulEqOrd.compare_eq_iff_eq, eq_comm]

theorem lookup_put (h : l.isRoot = false) (q : Place) :
    (t.put l e).lookup q = if q = l then some e else t.lookup q := by
  by_cases hq : q.isRoot = true
  · have hne : q ≠ l := by
      rintro rfl
      simp [h] at hq
    rw [lookup_of_isRoot hq, if_neg hne, lookup_of_isRoot hq]
  · have hq : q.isRoot = false := by simpa using hq
    rw [lookup_eq hq, lookup_eq hq, put, Std.TreeMap.getElem?_insert]
    simp only [compare_eq_eq]

theorem lookup_drop (h : l.isRoot = false) (q : Place) :
    (t.drop l).lookup q = if q = l then none else t.lookup q := by
  by_cases hq : q.isRoot = true
  · have hne : q ≠ l := by
      rintro rfl
      simp [h] at hq
    rw [lookup_of_isRoot hq, if_neg hne, lookup_of_isRoot hq]
  · have hq : q.isRoot = false := by simpa using hq
    rw [lookup_eq hq, lookup_eq hq, drop, Std.TreeMap.getElem?_erase]
    simp only [compare_eq_eq]

/-- Drops the entries of the places with a property. -/
theorem lookup_filter {f : Place → Bool} (hf : ∀ q : Place, q.isRoot = true → f q = true)
    (q : Place) :
    ({ t with entries := t.entries.filter fun q _ => f q } : FileTree).lookup q =
      if f q = true then t.lookup q else none := by
  by_cases hq : q.isRoot = true
  · rw [lookup_of_isRoot hq, if_pos (hf q hq), lookup_of_isRoot hq]
  · have hq : q.isRoot = false := by simpa using hq
    rw [lookup_eq hq, lookup_eq hq, Std.TreeMap.getElem?_filter']
    cases hfq : f q <;> cases t.entries[q]? <;> simp

/-- No place but a root itself is a root or above one. -/
theorem not_above_root (h : l.isRoot = false) (hne : l ≠ []) (hq : q.isRoot = true) :
    ¬ l <+: q := fun hl => by
  rw [Place.eq_of_above_root hq hl hne] at h
  rw [h] at hq
  cases hq

theorem isPrefixOf_eq_false : l.isPrefixOf q = false ↔ ¬ l <+: q := by
  rw [← List.isPrefixOf_iff_prefix, Bool.not_eq_true]

theorem lookup_prune (h : l.isRoot = false) (hne : l ≠ []) (q : Place) :
    (t.prune l).lookup q = if l <+: q then none else t.lookup q := by
  rw [prune, lookup_filter fun q hq => by simpa [isPrefixOf_eq_false] using not_above_root h hne hq]
  by_cases hl : l <+: q
  · simp [hl, List.isPrefixOf_iff_prefix.2 hl]
  · simp [hl, isPrefixOf_eq_false.2 hl]

/-! ## Soundness -/

/-- What stands in a place stands in a directory. -/
def Sound (t : FileTree) : Prop :=
  ∀ l name, l ≠ [] → (t.lookup (l ++ [name])).isSome → t.lookup l = some .directory

/-- Nothing stands in what is not a directory. -/
theorem Sound.lookup_append (h : t.Sound) (hl : t.lookup l ≠ some .directory) (hne : l ≠ [])
    (name : String) : t.lookup (l ++ [name]) = none := by
  by_contra hsome
  exact hl (h l name hne (Option.isSome_iff_ne_none.2 hsome))

/-- Nothing stands below what is not a directory. -/
theorem Sound.lookup_below (h : t.Sound) (hl : t.lookup l ≠ some .directory) (hne : l ≠ [])
    (hq : l <+: q) (hqne : q ≠ l) : t.lookup q = none := by
  obtain ⟨rest, rfl⟩ := hq
  induction rest using List.reverseRecOn with
  | nil => simp at hqne
  | append_singleton rest name ih =>
    rw [← List.append_assoc]
    refine h.lookup_append ?_ (by simp [hne]) name
    cases rest with
    | nil => simpa using hl
    | cons a rest =>
      rw [ih (by simp)]
      simp

theorem Sound.lookup_of_absent (h : t.Sound) (hl : t.lookup l = none) (hne : l ≠ [])
    (hq : l <+: q) : t.lookup q = none := by
  by_cases hql : q = l
  · rw [hql, hl]
  · exact h.lookup_below (by simp [hl]) hne hq hql

/-- Something may stand in a directory where no other directory is. -/
theorem Sound.put (h : t.Sound) (hne : l ≠ []) (hl : t.lookup l = some .directory)
    (hold : t.lookup (l ++ [name]) ≠ some .directory) : (t.put (l ++ [name]) e).Sound := by
  intro k n hk
  have hroot : (l ++ [name]).isRoot = false := Place.isRoot_append hne
  rw [lookup_put hroot, lookup_put hroot]
  intro hsome
  by_cases hkn : k ++ [n] = l ++ [name]
  · obtain ⟨rfl, -⟩ := List.append_inj' hkn rfl
    rw [if_neg (by simp), hl]
  · rw [if_neg hkn] at hsome
    by_cases hkl : k = l ++ [name]
    · exact absurd (h k n hk hsome) (hkl ▸ hold)
    · rw [if_neg hkl]
      exact h k n hk hsome

/-- What has nothing in it may go. -/
theorem Sound.drop (h : t.Sound) (hroot : l.isRoot = false)
    (hempty : ∀ name, t.lookup (l ++ [name]) = none) : (t.drop l).Sound := by
  intro k n hk
  rw [lookup_drop hroot, lookup_drop hroot]
  intro hsome
  by_cases hkn : k ++ [n] = l
  · simp [hkn] at hsome
  · rw [if_neg hkn] at hsome
    by_cases hkl : k = l
    · rw [hkl, hempty] at hsome
      cases hsome
    · rw [if_neg hkl]
      exact h k n hk hsome

/-- Everything below a place may go. -/
theorem Sound.of_pruned {t' : FileTree} (h : t.Sound)
    (hlookup : ∀ q, t'.lookup q = if l <+: q then none else t.lookup q) : t'.Sound := by
  intro k n hk
  rw [hlookup, hlookup]
  intro hsome
  by_cases hkn : l <+: k ++ [n]
  · simp [hkn] at hsome
  · rw [if_neg hkn] at hsome
    rw [if_neg fun hkl => hkn (hkl.trans (List.prefix_append _ _))]
    exact h k n hk hsome

/-! ## New entries -/

/-- An entry was put where no directory stood, and nothing else changed. Numbers may have been given
out. -/
structure Placed (t : FileTree) (l : Place) (e : Entry) (t' : FileTree) : Prop where
  sound : t'.Sound
  old : t.lookup l ≠ some .directory
  lookup : ∀ q, t'.lookup q = if q = l then some e else t.lookup q
  given : t.given ≤ t'.given

theorem Sound.placed (hs : t.Sound) (hf : t.HasFolder p)
    (hold : t.lookup (p.place ++ [name]) ≠ some .directory) (e : Entry) :
    t.Placed (p.place ++ [name]) e (t.put (p.place ++ [name]) e) where
  sound := hs.put p.place_ne_nil hf.lookup_place hold
  old := hold
  lookup := lookup_put (Place.isRoot_append p.place_ne_nil)
  given := Nat.le_refl _

namespace Placed

variable {t' : FileTree}

theorem lookup_self (h : t.Placed l e t') : t'.lookup l = some e := by
  rw [h.lookup, if_pos rfl]

theorem lookup_of_ne (h : t.Placed l e t') (hq : q ≠ l) : t'.lookup q = t.lookup q := by
  rw [h.lookup, if_neg hq]

/-- Directories stay directories. -/
theorem lookup_directory (h : t.Placed l e t') (hq : t.lookup q = some .directory) :
    t'.lookup q = some .directory := by
  rw [h.lookup_of_ne, hq]
  rintro rfl
  exact h.old hq

/-- A new file is no new directory. -/
theorem lookup_ne_directory {content : ByteArray} (h : t.Placed l (.file content) t')
    (hq : t.lookup q ≠ some .directory) : t'.lookup q ≠ some .directory := by
  rw [h.lookup]
  split
  · simp
  · exact hq

theorem hasFolder (h : t.Placed l e t') (hf : t.HasFolder p) : t'.HasFolder p :=
  hf.mono fun _ => h.lookup_directory

theorem names (h : t.Placed l e t') (hn : t.Names p) : t'.Names p :=
  ⟨hn.proper, fun l hl => h.lookup_directory (hn.leads l hl)⟩

end Placed

/-! ## Files -/

theorem Names.write {content : ByteArray} (h : t.Names p) (hend : p.ending = .name)
    (hold : t.lookup p.place ≠ some .directory) :
    t.write p content = .ok (t.put p.place (.file content)) := by
  rw [FileTree.write, h.locate]
  simp [hend, hold, bind, Except.bind, pure, Except.pure]

/-- **A file can be written where no directory stands.** -/
theorem HasFolder.write (hf : t.HasFolder p) (hs : t.Sound) (hname : name ≠ "..")
    (hold : t.lookup (p.place ++ [name]) ≠ some .directory) (content : ByteArray) :
    ∃ t', t.write (p.child name) content = .ok t' ∧
      t.Placed (p.place ++ [name]) (.file content) t' := by
  have hplace := Path.place_child p hname
  refine ⟨_, ?_, hs.placed hf hold _⟩
  rw [(names_child hf hname).write rfl (by rwa [hplace]), hplace]

theorem Names.removeFile {content : ByteArray} (h : t.Names p) (hend : p.ending = .name)
    (he : t.lookup p.place = some (.file content)) :
    t.removeFile p = .ok (t.drop p.place) := by
  rw [FileTree.removeFile, h.locate]
  simp [hend, he, bind, Except.bind, pure, Except.pure]

/-- Only a file is removed as one. -/
theorem of_removeFile_eq_ok {t' : FileTree} (h : t.removeFile p = .ok t') :
    (∃ content, t.lookup p.place = some (.file content)) ∧ t' = t.drop p.place := by
  rw [FileTree.removeFile, bind_eq_ok] at h
  obtain ⟨l, hl, h⟩ := h
  obtain ⟨-, rfl⟩ := locate_eq_ok.1 hl
  cases he : t.lookup p.place with
  | none => simp [he, throw, throwThe, MonadExceptOf.throw] at h
  | some e =>
    cases e with
    | directory => simp [he, throw, throwThe, MonadExceptOf.throw] at h
    | file content =>
      refine ⟨⟨content, rfl⟩, ?_⟩
      simp only [he] at h
      split at h
      · cases h
      · exact (Except.ok.inj h).symm

theorem Names.moveFile {source target : Path} {content : ByteArray} (hs : t.Names source)
    (hsend : source.ending = .name) (he : t.lookup source.place = some (.file content))
    (ht : t.Names target) (htend : target.ending = .name)
    (hold : t.lookup target.place ≠ some .directory) :
    t.moveFile source target =
      .ok ((t.drop source.place).put target.place (.file content)) := by
  rw [FileTree.moveFile, hs.find he (by simp [hsend]), hs.read hsend he]
  simp [ht.locate, ht.proper, htend, hold, bind, Except.bind, pure, Except.pure]

/-! ## Directories -/

/-- A directory is empty if no name leads to anything in it. -/
theorem isEmpty_childNames (hl : l ≠ []) :
    (t.childNames l).isEmpty = true ↔ ∀ name, t.lookup (l ++ [name]) = none := by
  have hroot : ∀ name, (l ++ [name]).isRoot = false := fun _ => Place.isRoot_append hl
  simp only [childNames, List.isEmpty_iff, List.filterMap_eq_nil_iff, lookup_eq (hroot _),
    Std.TreeMap.mem_keys]
  constructor
  · intro h name
    by_contra hsome
    have hmem := Std.TreeMap.mem_iff_isSome_getElem?.2 (Option.isSome_iff_ne_none.2 hsome)
    simpa using h _ hmem
  · intro h q hq
    split
    · rename_i hql
      cases q using List.reverseRecOn with
      | nil => rfl
      | append_singleton q name =>
        rw [List.dropLast_concat] at hql
        rw [Std.TreeMap.mem_iff_isSome_getElem?, hql, h name] at hq
        cases hq
    · rfl

theorem Names.removeDirectory (h : t.Names p) (he : t.lookup p.place = some .directory)
    (hempty : ∀ name, t.lookup (p.place ++ [name]) = none) :
    t.removeDirectory p = .ok (t.drop p.place) := by
  obtain ⟨⟨hnames, hlast⟩, hdot⟩ := Path.isProper_iff.1 h.proper
  have hup : p.endsUp = false := by simp [Path.endsUp, hlast]
  have henter : t.enter p.place = .ok () := enter_eq_ok.2 he
  rw [FileTree.removeDirectory, h.locate]
  simp [hnames, hdot, hup, henter, (isEmpty_childNames p.place_ne_nil).2 hempty, bind,
    Except.bind, pure, Except.pure]

/-- What is left of a tree when a directory is emptied. -/
theorem Names.clear (h : t.Names p) (he : t.lookup p.place = some .directory) :
    ∃ t', t.clear p = .ok t' ∧
      ∀ q, t'.lookup q = if p.place <+: q ∧ q ≠ p.place then none else t.lookup q := by
  have henter : t.enter p.place = .ok () := enter_eq_ok.2 he
  have hroot := Path.isRoot_place h.proper
  refine ⟨{ t with entries := t.entries.filter fun q _ => !(p.place.isPrefixOf q && q != p.place) },
    ?_, fun q => ?_⟩
  · rw [FileTree.clear, h.find he fun _ => rfl]
    simp only [bind, Except.bind, henter, pure, Except.pure]
  rw [lookup_filter fun q hq => by
    simp [isPrefixOf_eq_false.2 (not_above_root hroot p.place_ne_nil hq)]]
  by_cases hl : p.place <+: q
  · by_cases hq : q = p.place
    · simp [hq]
    · simp [hl, hq, List.isPrefixOf_iff_prefix.2 hl]
  · simp [hl, isPrefixOf_eq_false.2 hl]

theorem Names.isVacant (h : t.Names p) (he : t.lookup p.place = some .directory) :
    t.isVacant p = true ↔ ∀ name, t.lookup (p.place ++ [name]) = none := by
  rw [FileTree.isVacant, h.find he fun _ => rfl]
  exact isEmpty_childNames p.place_ne_nil

/-- Everything below one place now stands below another. -/
structure Moved (t : FileTree) (l k : Place) (t' : FileTree) : Prop where
  inside : ∀ rest, t'.lookup (k ++ rest) = t.lookup (l ++ rest)
  gone : ∀ q, l <+: q → ¬ k <+: q → t'.lookup q = none
  others : ∀ q, ¬ l <+: q → ¬ k <+: q → t'.lookup q = t.lookup q

theorem Moved.sound {k : Place} {t' : FileTree} (hm : Moved t l (k ++ [name]) t') (h : t.Sound)
    (hlne : l ≠ []) (hk : t.lookup k = some .directory) (hlk : ¬ l <+: k) : t'.Sound := by
  intro a n ha hsome
  by_cases hka : k ++ [name] <+: a ++ [n]
  · rcases List.prefix_concat_iff.1 hka with heq | hka
    · obtain ⟨rfl, -⟩ := List.append_inj' heq rfl
      rw [hm.others _ hlk (Place.not_append_above k name), hk]
    · obtain ⟨rest, rfl⟩ := hka
      rw [List.append_assoc, hm.inside, ← List.append_assoc] at hsome
      rw [hm.inside]
      exact h _ n (by simp [hlne]) hsome
  · by_cases hla : l <+: a ++ [n]
    · rw [hm.gone _ hla hka] at hsome
      cases hsome
    · rw [hm.others _ hla hka] at hsome
      rw [hm.others _ (fun hl => hla (hl.trans (List.prefix_append _ _)))
        fun hl => hka (hl.trans (List.prefix_append _ _))]
      exact h a n ha hsome

/-- Paths that lead through neither of both places can still be followed. -/
theorem Moved.hasFolder {k : Place} {t' : FileTree} (hm : Moved t l k t') (hlne : l ≠ [])
    (hkne : k ≠ []) (hl : l ∉ p.track) (hk : k ∉ p.track) (hf : t.HasFolder p) :
    t'.HasFolder p := fun q hq => by
  rw [hm.others q (fun habove => hl (Path.mem_track_of_above hq habove hlne))
    fun habove => hk (Path.mem_track_of_above hq habove hkne)]
  exact hf q hq

/-- The entries below one place, as they stand below another. -/
def movedEntries (t : FileTree) (l k : Place) : List (Place × Entry) :=
  (t.entries.toList.filter fun e => l.isPrefixOf e.1).map fun e => (k ++ e.1.drop l.length, e.2)

theorem mem_movedEntries {k : Place} (hroot : l.isRoot = false) (hne : l ≠ []) :
    (q, e) ∈ t.movedEntries l k ↔ ∃ rest, q = k ++ rest ∧ t.lookup (l ++ rest) = some e := by
  have hlookup : ∀ rest, t.lookup (l ++ rest) = t.entries[l ++ rest]? := fun rest =>
    lookup_eq (Bool.eq_false_iff.2 fun h =>
      not_above_root hroot hne h (List.prefix_append l rest))
  simp only [movedEntries, List.mem_map, List.mem_filter, hlookup]
  constructor
  · rintro ⟨⟨a, b⟩, ⟨hmem, hl⟩, h⟩
    obtain ⟨rfl, rfl⟩ := Prod.mk.inj h
    obtain ⟨rest, rfl⟩ := List.isPrefixOf_iff_prefix.1 hl
    exact ⟨rest, by simp, Std.TreeMap.mem_toList_iff_getElem?_eq_some.1 hmem⟩
  · rintro ⟨rest, rfl, h⟩
    exact ⟨(l ++ rest, e), ⟨Std.TreeMap.mem_toList_iff_getElem?_eq_some.2 h, by simp⟩, by simp⟩

theorem distinct_movedEntries (t : FileTree) (l k : Place) :
    (t.movedEntries l k).Pairwise fun a b => ¬ compare a.1 b.1 = .eq := by
  rw [movedEntries, List.pairwise_map]
  refine List.Pairwise.imp_of_mem ?_ (Std.TreeMap.distinct_keys_toList.filter _)
  intro a b ha hb hab heq
  obtain ⟨ra, hra⟩ := List.isPrefixOf_iff_prefix.1 (List.mem_filter.1 ha).2
  obtain ⟨rb, hrb⟩ := List.isPrefixOf_iff_prefix.1 (List.mem_filter.1 hb).2
  rw [Std.LawfulEqOrd.compare_eq_iff_eq] at heq hab
  refine hab ?_
  rw [← hra, ← hrb] at heq ⊢
  simpa using heq

/-- A directory moves to where nothing stands, or an empty directory does. -/
theorem Names.moveDirectory {source : Path} (ht : t.Names p) (hs : t.HasFolder source)
    (hroot : source.place.isRoot = false)
    (hold : t.lookup p.place = none ∨ t.lookup p.place = some .directory)
    (hempty : ∀ q, p.place <+: q → q ≠ p.place → t.lookup q = none) :
    ∃ t', t.moveDirectory source p = .ok t' ∧ Moved t source.place p.place t' := by
  have hk := Path.isRoot_place ht.proper
  have hne := source.place_ne_nil
  let t' : FileTree := { t with
    entries := (t.prune source.place).entries.insertMany (t.movedEntries source.place p.place) }
  have hlookup : ∀ q e, (q, e) ∈ t.movedEntries source.place p.place → q.isRoot = false →
      t'.lookup q = some e := fun q e hmem hq => by
    rw [lookup_eq hq]
    exact Std.TreeMap.getElem?_insertMany_list_of_mem (Std.ReflCmp.compare_self)
      (distinct_movedEntries t _ _) hmem
  have hrest : ∀ q, (∀ e, (q, e) ∉ t.movedEntries source.place p.place) →
      t'.lookup q = (t.prune source.place).lookup q := fun q hmem => by
    by_cases hq : q.isRoot = true
    · rw [lookup_of_isRoot hq, lookup_of_isRoot hq]
    · rw [lookup_eq (by simpa using hq), lookup_eq (by simpa using hq)]
      refine Std.TreeMap.getElem?_insertMany_list_of_contains_eq_false ?_
      simpa using hmem
  have hout : ∀ q, ¬ p.place <+: q → t'.lookup q = (t.prune source.place).lookup q := by
    refine fun q hq => hrest q fun e hmem => hq ?_
    obtain ⟨rest, rfl, -⟩ := (mem_movedEntries hroot hne).1 hmem
    exact List.prefix_append _ _
  have hvacant : ∀ name, t.lookup (p.place ++ [name]) = none := fun name =>
    hempty _ (List.prefix_append _ _) (by simp)
  refine ⟨t', ?_, ?_, ?_, ?_⟩
  · rw [FileTree.moveDirectory, folder_eq_ok.2 ⟨hs, rfl⟩]
    rcases hold with hold | hold
    · simp [bind, Except.bind, ht.locate, ht.proper, hold, pure, Except.pure, t', movedEntries,
        prune]
    · simp [bind, Except.bind, ht.locate, ht.proper, hold, pure, Except.pure, t', movedEntries,
        prune, (isEmpty_childNames p.place_ne_nil).2 hvacant]
  · intro rest
    have hq : (p.place ++ rest).isRoot = false := Bool.eq_false_iff.2 fun h =>
      not_above_root hk p.place_ne_nil h (List.prefix_append _ _)
    cases he : t.lookup (source.place ++ rest) with
    | some e => exact hlookup _ e ((mem_movedEntries hroot hne).2 ⟨rest, rfl, he⟩) hq
    | none =>
      have hnot : ∀ e, (p.place ++ rest, e) ∉ t.movedEntries source.place p.place := by
        intro e hmem
        obtain ⟨other, hother, hsome⟩ := (mem_movedEntries hroot hne).1 hmem
        rw [← List.append_cancel_left hother, he] at hsome
        cases hsome
      rw [hrest _ hnot, lookup_prune hroot hne]
      split
      · rfl
      · refine hempty _ (List.prefix_append _ _) fun hnil => ?_
        rw [List.append_right_eq_self.1 hnil, List.append_nil, hs.lookup_place] at he
        cases he
  · intro q hl hkq
    rw [hout q hkq, lookup_prune hroot hne, if_pos hl]
  · intro q hl hkq
    rw [hout q hkq, lookup_prune hroot hne, if_neg hl]

/-! ## Fresh names -/

theorem toString_injective {k n : Nat} (h : toString k = toString n) : k = n := by
  have := congrArg String.toNat? h
  simpa using this

theorem append_toString_ne_dots (stem : String) (k : Nat) : stem ++ toString k ≠ ".." := by
  intro h
  obtain ⟨d, ds, hd⟩ := List.exists_cons_of_ne_nil
    (l := (Nat.toDigits 10 k).reverse) (by simp [Nat.toDigits_ne_nil])
  have hmem : d ∈ Nat.toDigits 10 k := by
    rw [← List.mem_reverse, hd]
    simp
  have hdigit : d.isDigit = true :=
    Nat.isDigit_of_mem_toDigits (by decide) (by decide) hmem
  have hlist : stem.toList ++ Nat.toDigits 10 k = ['.', '.'] := by
    have := congrArg String.toList h
    simpa [String.toList_append, Nat.toString_eq_ofList_toDigits] using this
  have hrev := congrArg List.reverse hlist
  rw [List.reverse_append, hd] at hrev
  obtain ⟨rfl, -⟩ := List.cons_eq_cons.1 hrev
  cases hdigit

theorem fresh_injective (l : Place) (stem : String) :
    Function.Injective fun k : Nat => l ++ [stem ++ toString k] := by
  intro k n h
  have hname : stem ++ toString k = stem ++ toString n := by
    simpa using h
  exact toString_injective (String.append_right_inj stem |>.1 hname)

/-- Among more names than there are entries, one is free. -/
theorem exists_free (t : FileTree) (hl : l ≠ []) (stem : String) :
    ∃ k ∈ List.range' t.given (t.entries.size + 1),
      t.lookup (l ++ [stem ++ toString k]) = none := by
  by_contra hnone
  simp only [not_exists, not_and] at hnone
  have hsub : (List.range' t.given (t.entries.size + 1)).map (fun k => l ++ [stem ++ toString k]) ⊆
      t.entries.keys := by
    intro q hq
    obtain ⟨k, hk, rfl⟩ := List.mem_map.1 hq
    have := hnone k hk
    rw [lookup_eq (Place.isRoot_append hl)] at this
    rw [Std.TreeMap.mem_keys, Std.TreeMap.mem_iff_isSome_getElem?]
    exact Option.isSome_iff_ne_none.2 this
  have hnodup : ((List.range' t.given (t.entries.size + 1)).map
      fun k => l ++ [stem ++ toString k]).Nodup :=
    List.Nodup.map (fresh_injective l stem) (List.nodup_range')
  have hle := (hnodup.subperm hsub).length_le
  rw [List.length_map, List.length_range', Std.TreeMap.length_keys] at hle
  omega

/-- **A fresh name can always be given out**, with a number that was not given out before. -/
theorem HasFolder.makeFresh (h : t.HasFolder p) (hs : t.Sound) (stem : String) (e : Entry) :
    ∃ (k : Nat) (t' : FileTree), t.makeFresh p stem e = .ok (p.child (stem ++ toString k), t') ∧
      t.given ≤ k ∧ t.lookup (p.place ++ [stem ++ toString k]) = none ∧
      t.Placed (p.place ++ [stem ++ toString k]) e t' := by
  obtain ⟨n, hn, hnone⟩ := exists_free t p.place_ne_nil stem
  have hsome : ((List.range' t.given (t.entries.size + 1)).find? fun k =>
      (t.lookup (p.place ++ [stem ++ toString k])).isNone).isSome := by
    rw [List.find?_isSome]
    exact ⟨n, hn, Option.isNone_iff_eq_none.2 hnone⟩
  obtain ⟨k, hk⟩ := Option.isSome_iff_exists.1 hsome
  have hfree : (t.lookup (p.place ++ [stem ++ toString k])).isNone = true := by
    have := List.find?_some hk
    exact this
  have hnone := Option.isNone_iff_eq_none.1 hfree
  have hgiven : t.given ≤ k := (List.mem_range'_1.1 (List.mem_of_find?_eq_some hk)).1
  let t' := { t.put (p.place ++ [stem ++ toString k]) e with given := k + 1 }
  have hold : t.lookup (p.place ++ [stem ++ toString k]) ≠ some .directory := by
    rw [hnone]
    simp
  refine ⟨k, t', ?_, hgiven, hnone, { hs.placed h hold e with given := Nat.le_succ_of_le hgiven }⟩
  rw [FileTree.makeFresh, folder_eq_ok.2 ⟨h, rfl⟩]
  simp only [bind, Except.bind]
  rw [hk]
  rfl

end TripleStore.FileTree
