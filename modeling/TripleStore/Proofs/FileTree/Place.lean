import Mathlib.Data.List.Infix
import TripleStore.FileTree

/-!
# Where paths lead

A path is followed through the places of its `Path.trail` to its `Path.place`; together they are its
`Path.track`, and all of them depend on the path alone. Whoever follows a path comes through every
place above those of its track (`mem_track_of_above`). The name of a proper path is one in the
place of its parent (`place_eq_append`).
-/

namespace TripleStore

/-! ## Places -/

namespace Place

variable {l : Place} {name : String}

theorem isRoot_append (h : l ≠ []) : isRoot (l ++ [name]) = false := by
  cases l with
  | nil => exact absurd rfl h
  | cons a l => cases l <;> simp [isRoot]

/-- A root has nothing but itself above it. -/
theorem eq_of_above_root {q : Place} (h : l.isRoot = true) (hq : q <+: l) (hne : q ≠ []) :
    q = l := by
  obtain ⟨r, rfl⟩ : ∃ r, l = [r] := by
    simp only [isRoot, Bool.or_eq_true, beq_iff_eq] at h
    rcases h with rfl | rfl
    · exact ⟨_, rfl⟩
    · exact ⟨_, rfl⟩
  cases q with
  | nil => exact absurd rfl hne
  | cons a q =>
    obtain ⟨rfl, htail⟩ := List.cons_prefix_cons.1 hq
    rw [List.prefix_nil.1 htail]

theorem not_append_above (l : Place) (name : String) : ¬ l ++ [name] <+: l := fun h => by
  have := h.length_le
  rw [List.length_append, List.length_singleton] at this
  omega

/-- The place is a root or below one. -/
def Anchored (l : Place) : Prop := ∃ r rest, l = r :: rest ∧ isRoot [r] = true

theorem Anchored.ne_nil (h : l.Anchored) : l ≠ [] := by
  obtain ⟨r, rest, rfl, -⟩ := h
  simp

theorem anchored_start (p : Path) : (start p).Anchored := by
  unfold start
  split
  · exact ⟨_, _, rfl, rfl⟩
  · exact ⟨_, _, rfl, rfl⟩

theorem Anchored.append (h : l.Anchored) (name : String) : (l ++ [name]).Anchored := by
  obtain ⟨r, rest, rfl, hr⟩ := h
  exact ⟨r, rest ++ [name], rfl, hr⟩

theorem Anchored.up (h : l.Anchored) : l.up.Anchored := by
  unfold Place.up
  split
  · exact h
  · rename_i hroot
    obtain ⟨r, rest, rfl, hr⟩ := h
    cases rest with
    | nil => exact absurd hr hroot
    | cons a rest => exact ⟨r, (a :: rest).dropLast, rfl, hr⟩

theorem Anchored.follow (h : l.Anchored) (name : String) : (l.follow name).Anchored := by
  unfold Place.follow
  split
  · exact h.up
  · exact h.append name

theorem follow_of_ne (h : name ≠ "..") : l.follow name = l ++ [name] := if_neg h

theorem up_above (l : Place) : l.up <+: l := by
  unfold up
  split
  · exact List.prefix_refl l
  · exact List.dropLast_prefix l

/-- A name leads up, or to itself in the place. -/
theorem follow_cases (l : Place) (name : String) :
    l.follow name <+: l ∨ l.follow name = l ++ [name] := by
  unfold follow
  split
  · exact .inl l.up_above
  · exact .inr rfl

/-- What is above the place that a name leads to is that place or above the one before. -/
theorem above_of_above_follow {q : Place} (hq : q <+: l.follow name) :
    q = l.follow name ∨ q <+: l := by
  rcases l.follow_cases name with h | h
  · exact .inr (hq.trans h)
  · rw [h] at hq ⊢
    exact List.prefix_concat_iff.1 hq

end Place

/-! ## Tracks -/

namespace Path

variable {p : Path} {name : String} {l q : Place}

/-- The places from which names are followed. -/
def trailFrom (l : Place) : List String → List Place
  | [] => []
  | name :: names => l :: trailFrom (l.follow name) names

/-- The places that a path is followed through, before its last name leads to its own. -/
def trail (p : Path) : List Place := trailFrom (Place.start p) p.names

/-- The place that a path leads to. -/
def place (p : Path) : Place := p.names.foldl Place.follow (Place.start p)

/-- The places that a path is followed through, its own included. -/
def track (p : Path) : List Place := p.trail ++ [p.place]

theorem trailFrom_append (l : Place) (a b : List String) :
    trailFrom l (a ++ b) = trailFrom l a ++ trailFrom (a.foldl Place.follow l) b := by
  induction a generalizing l with
  | nil => rfl
  | cons name a ih => simp [trailFrom, ih]

theorem place_mem_track (p : Path) : p.place ∈ p.track := by simp [track]

theorem mem_track_of_mem_trail (h : l ∈ p.trail) : l ∈ p.track := by simp [track, h]

/-! ## Children and parents -/

theorem start_child (p : Path) (name : String) : Place.start (p.child name) = Place.start p := rfl

@[simp] theorem trail_child (p : Path) (name : String) : (p.child name).trail = p.track := by
  rw [trail, start_child, child, trailFrom_append]
  rfl

theorem place_child (p : Path) (h : name ≠ "..") : (p.child name).place = p.place ++ [name] := by
  rw [place, start_child, child, List.foldl_append, List.foldl_cons, List.foldl_nil,
    Place.follow_of_ne h]
  rfl

theorem place_child_append (p : Path) (h : name ≠ "..") (rest : Place) :
    (p.child name).place ++ rest = p.place ++ name :: rest := by
  rw [place_child p h, List.append_assoc, List.singleton_append]

theorem track_child (p : Path) (h : name ≠ "..") :
    (p.child name).track = p.track ++ [p.place ++ [name]] := by
  rw [track, trail_child, place_child p h]

theorem isProper_child (p : Path) (h : name ≠ "..") : (p.child name).isProper = true := by
  simp [isProper, child, endsUp, h]

theorem names_child_ne_nil (p : Path) (name : String) : (p.child name).names ≠ [] := by
  simp [child]

/-- A path with a last name leads where its parent and that name lead. -/
theorem parent_eq (h : p.names ≠ []) : p.parent = ⟨p.rooted, p.names.dropLast, .name⟩ := by
  simp [parent, h]

theorem track_parent (h : p.names ≠ []) : p.parent.track = p.trail := by
  have hnames : p.names = p.names.dropLast ++ [p.names.getLast h] :=
    (List.dropLast_append_getLast h).symm
  rw [parent_eq h, trail, hnames, trailFrom_append]
  rw [List.dropLast_concat]
  rfl

theorem place_parent_child (p : Path) (name : String) : (p.child name).parent.place = p.place := by
  have hnames : (p.child name).names.dropLast = p.names := List.dropLast_concat
  rw [parent_eq (names_child_ne_nil p name), hnames]
  rfl

theorem place_eq_follow (h : p.names ≠ []) :
    p.place = p.parent.place.follow (p.names.getLast h) := by
  have hsplit : p.names = p.names.dropLast ++ [p.names.getLast h] :=
    (List.dropLast_append_getLast h).symm
  calc p.place = (p.names.dropLast ++ [p.names.getLast h]).foldl Place.follow
        (Place.start p) := by rw [← hsplit]; rfl
    _ = p.parent.place.follow (p.names.getLast h) := by
      rw [List.foldl_append, List.foldl_cons, List.foldl_nil, parent_eq h]
      rfl

theorem isProper_iff :
    p.isProper = true ↔ (p.names ≠ [] ∧ p.names.getLast? ≠ some "..") ∧ p.ending ≠ .dot := by
  simp [isProper, endsUp]

theorem names_ne_nil_of_isProper (h : p.isProper = true) : p.names ≠ [] := (isProper_iff.1 h).1.1

/-- **A proper path names an entry in the place of its parent.** -/
theorem place_eq_append (h : p.isProper = true) :
    ∃ name, name ≠ ".." ∧ name ∈ p.names ∧ p.place = p.parent.place ++ [name] := by
  obtain ⟨⟨hnames, hlast⟩, -⟩ := isProper_iff.1 h
  have hne : p.names.getLast hnames ≠ ".." := by
    intro hdots
    rw [List.getLast?_eq_getLast_of_ne_nil hnames, hdots] at hlast
    exact hlast rfl
  exact ⟨p.names.getLast hnames, hne, List.getLast_mem hnames, by
    rw [place_eq_follow hnames, Place.follow_of_ne hne]⟩

/-- The path ends in a name of its own and does not lead through what it names. -/
structure IsDirect (p : Path) : Prop where
  proper : p.isProper = true
  out : p.place ∉ p.trail

/-! ## What is above -/

theorem anchored_foldl (names : List String) (h : l.Anchored) :
    (names.foldl Place.follow l).Anchored := by
  induction names generalizing l with
  | nil => exact h
  | cons name names ih => exact ih (h.follow name)

theorem anchored_of_mem_trailFrom {names : List String} (h : l.Anchored)
    (hq : q ∈ trailFrom l names) : q.Anchored := by
  induction names generalizing l with
  | nil => simp [trailFrom] at hq
  | cons name names ih =>
    rcases List.mem_cons.1 hq with rfl | hq
    · exact h
    · exact ih (h.follow name) hq

theorem anchored_of_mem_track (h : l ∈ p.track) : l.Anchored := by
  rcases List.mem_append.1 h with h | h
  · exact anchored_of_mem_trailFrom (Place.anchored_start p) h
  · rw [List.mem_singleton.1 h]
    exact anchored_foldl p.names (Place.anchored_start p)

theorem ne_nil_of_mem_track (h : l ∈ p.track) : l ≠ [] := (anchored_of_mem_track h).ne_nil

theorem place_ne_nil (p : Path) : p.place ≠ [] := ne_nil_of_mem_track p.place_mem_track

theorem isRoot_place (h : p.isProper = true) : p.place.isRoot = false := by
  obtain ⟨name, -, -, hplace⟩ := place_eq_append h
  rw [hplace]
  exact Place.isRoot_append p.parent.place_ne_nil

/-- What is above the places that names lead through is one of them or above the first. -/
theorem mem_or_above_of_above {names : List String}
    (hl : l ∈ trailFrom q names ++ [names.foldl Place.follow q]) {a : Place} (ha : a <+: l) :
    a ∈ trailFrom q names ++ [names.foldl Place.follow q] ∨ a <+: q := by
  induction names generalizing q with
  | nil =>
    obtain rfl : l = q := by simpa [trailFrom] using hl
    exact .inr ha
  | cons name names ih =>
    rw [trailFrom, List.cons_append, List.foldl_cons, List.mem_cons] at hl ⊢
    rcases hl with rfl | hl
    · exact .inr ha
    rcases ih hl with h | h
    · exact .inl (.inr h)
    rcases Place.above_of_above_follow h with rfl | h
    · refine .inl (.inr ?_)
      cases names with
      | nil => simp [trailFrom]
      | cons next names => simp [trailFrom]
    · exact .inr h

/-- **A track comes through every place above its own.** -/
theorem mem_track_of_above (hl : l ∈ p.track) (hq : q <+: l) (hne : q ≠ []) : q ∈ p.track := by
  rcases mem_or_above_of_above hl hq with h | h
  · exact h
  · have hroot : (Place.start p).isRoot = true := by
      unfold Place.start
      split <;> rfl
    rw [Place.eq_of_above_root hroot h hne]
    cases hnames : p.names <;> simp [track, trail, place, trailFrom, hnames]

/-- What is above a place on the way is on the way. -/
theorem mem_trail_of_above (hl : l ∈ p.trail) (hq : q <+: l) (hne : q ≠ []) : q ∈ p.trail := by
  have hnames : p.names ≠ [] := fun hnil => by simp [trail, hnil, trailFrom] at hl
  rw [← track_parent hnames] at hl ⊢
  exact mem_track_of_above hl hq hne

/-- The directories above a path are on the way to it, or roots. -/
theorem mem_trail_or_isRoot (hq : q ∈ p.parent.track) : q ∈ p.trail ∨ q.isRoot = true := by
  by_cases hnames : p.names = []
  · have hparent : p.parent = blank := by simp [parent, hnames]
    obtain rfl : q = ["."] := by
      rw [hparent] at hq
      simpa [track, trail, place, blank, trailFrom, Place.start] using hq
    exact .inr rfl
  · exact .inl (track_parent hnames ▸ hq)

end Path

end TripleStore
