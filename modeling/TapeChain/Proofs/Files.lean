import TapeChain.Proofs.Artifact
import TapeChain.Store.Files

/-! Paths, and files that were written to them. A path is followed through folders only, and a file
is never written where a folder stands; so a write changes the way of no path, and the file is found
again by the path it was written to. -/
namespace TapeChain

/-! ### Names -/

namespace Path

/-- The name is made of dots alone. -/
def onlyDots (name : List Char) : Bool := name.all (· = '.')

theorem lastName_of_not_mem {cs : List Char} (h : '/' ∉ cs) : lastName cs = cs := by
  have whole : cs.reverse.takeWhile (· ≠ '/') = cs.reverse := by
    rw [List.takeWhile_eq_self_iff]
    intro c mem
    exact decide_eq_true fun same => h (same ▸ List.mem_reverse.mp mem)
  rw [lastName, whole, List.reverse_reverse]

theorem not_mem_lastName (cs : List Char) : '/' ∉ lastName cs := by
  intro mem
  have passed := List.mem_takeWhile_imp (List.mem_reverse.mp mem)
  exact absurd rfl (of_decide_eq_true passed)

/-- A suffix starts at a dot behind something else than dots. -/
theorem splitName_append {front ext : List Char} (h : '.' ∉ ext) :
    splitName (front ++ '.' :: ext) =
      if onlyDots front then (front ++ '.' :: ext, []) else (front, '.' :: ext) := by
  have passed : ∀ c ∈ ext.reverse, decide (c ≠ '.') = true := by
    intro c mem
    exact decide_eq_true fun same => h (same ▸ List.mem_reverse.mp mem)
  have reversed : (front ++ '.' :: ext).reverse = ext.reverse ++ '.' :: front.reverse := by simp
  have taken : (front ++ '.' :: ext).reverse.takeWhile (· ≠ '.') = ext.reverse := by
    rw [reversed, List.takeWhile_append_of_pos passed]
    simp
  have dropped : (front ++ '.' :: ext).reverse.dropWhile (· ≠ '.') = '.' :: front.reverse := by
    rw [reversed, List.dropWhile_append_of_pos passed]
    simp
  simp only [splitName, taken, dropped, List.all_reverse, List.reverse_reverse]
  rfl

/-- Without its suffix a name is the front of itself, and is made of dots alone only if it was so
with the suffix. -/
theorem splitName_front (name : List Char) :
    (splitName name).1 <+: name ∧ onlyDots (splitName name).1 = onlyDots name := by
  by_cases dotted : '.' ∈ name.reverse
  · obtain ⟨ext, front, split, plain⟩ := List.eq_append_cons_of_mem dotted
    obtain rfl : name = front.reverse ++ '.' :: ext.reverse := by
      rw [← List.reverse_reverse name, split]
      simp
    rw [splitName_append fun mem => plain (List.mem_reverse.mp mem)]
    split
    · exact ⟨List.prefix_rfl, rfl⟩
    next other =>
      refine ⟨List.prefix_append _ _, ?_⟩
      rw [onlyDots, onlyDots, List.all_append, ← onlyDots, eq_false_of_ne_true other,
        Bool.false_and]
  · have bare : name.reverse.dropWhile (· ≠ '.') = [] := by
      rw [List.dropWhile_eq_nil_iff]
      intro c mem
      exact decide_eq_true fun same => dotted (same ▸ mem)
    have whole : splitName name = (name, []) := by simp only [splitName, bare]
    rw [whole]
    exact ⟨List.prefix_rfl, rfl⟩

theorem toList_stem_append (path ext : String) :
    (stem path ++ ext).toList = (splitName (lastName path.toList)).1 ++ ext.toList := by
  rw [String.toList_append, stem, String.toList_ofList]

theorem not_mem_stem_append (path : String) {ext : String} (plain : '/' ∉ ext.toList) :
    '/' ∉ (stem path ++ ext).toList := by
  rw [toList_stem_append, List.mem_append]
  rintro (mem | mem)
  · exact not_mem_lastName _ ((splitName_front _).1.subset mem)
  · exact plain mem

/-- A suffix put behind a stem is found again, unless the stem is made of dots alone. -/
theorem suffix_stem_append (path : String) {ext : String} {letters : List Char}
    (spelled : ext.toList = '.' :: letters) (slash : '/' ∉ ext.toList) (dot : '.' ∉ letters)
    (small : letters.map Char.toLower = letters) :
    suffix (stem path ++ ext) = if onlyDots (lastName path.toList) then "" else ext := by
  rw [suffix, lastName_of_not_mem (not_mem_stem_append path slash), toList_stem_append, spelled,
    splitName_append dot, (splitName_front _).2]
  split
  · rfl
  · have whole : String.ofList ('.' :: letters) = ext := by rw [← spelled, String.ofList_toList]
    rw [List.map_cons, small]
    exact whole

theorem names_of_not_mem {name : String} (single : '/' ∉ name.toList) (present : name ≠ "") :
    names name = [name] := by
  have whole (cs : List Char) (h : '/' ∉ cs) : split cs = [cs] := by
    induction cs with
    | nil => rfl
    | cons c cs ih =>
        have first : c ≠ '/' := fun same => h (same ▸ List.mem_cons_self)
        have others := ih fun mem => h (List.mem_cons_of_mem _ mem)
        simp only [split, if_neg first, others]
  have kept : name.toList ≠ [] := fun empty => present (String.toList_eq_nil_iff.mp empty)
  rw [names, whole _ single, List.filter_cons_of_pos (by simpa using kept), List.filter_nil,
    List.map_singleton, String.ofList_toList]

end Path

/-! ### Following a path -/

namespace Files

/-- A path that can be followed to a place where a file may stand. -/
structure Leads (fs : Files) (path : String) (place : Place) : Prop where
  legal : checkPath path = .ok ()
  plain : Path.endsInSlash path = false
  followed : (Path.names path).foldlM (fs.follow path) (fs.origin path) = .ok place

/-- A name on its own is a place in the working folder, unless it names a folder by dots. -/
theorem Leads.of_name {fs : Files} {name : String} {place : Place} (h : fs.Leads name place)
    (single : '/' ∉ name.toList) (long : 2 < name.length) : place = fs.working ++ [name] := by
  have present : name ≠ "" := by
    rintro rfl
    cases long
  have other (dots : String) (short : dots.length ≤ 2) : name ≠ dots := by
    rintro rfl
    omega
  have relative : Path.isAbsolute name = false := by
    rw [Path.isAbsolute, decide_eq_false_iff_not]
    intro first
    exact single (List.mem_of_mem_head? first)
  have followed := h.followed
  rw [Path.names_of_not_mem single present, List.foldlM_cons, origin, relative, if_neg (by decide)]
    at followed
  obtain ⟨next, step, done⟩ := bind_eq_ok_iff.mp followed
  cases done
  unfold follow at step
  split at step
  · cases step
  · cases step
  · rw [if_neg (other "." (by decide)), if_neg (other ".." (by decide))] at step
    split at step
    · cases step
    · exact (Except.ok.inj step).symm

theorem read_eq_ok_iff {fs : Files} {path : String} {bytes : Bytes} :
    fs.read path = .ok bytes ↔ ∃ place, fs.Leads path place ∧ fs.node? place = some (.file bytes) := by
  unfold read
  constructor
  · intro h
    obtain ⟨_, legal, h⟩ := bind_eq_ok_iff.mp h
    obtain ⟨place, followed, h⟩ := bind_eq_ok_iff.mp h
    split at h
    · cases h
    · cases h
    next found =>
      split at h
      · cases h
      next plain =>
        cases h
        exact ⟨place, ⟨legal, eq_false_of_ne_true plain, followed⟩, found⟩
  · rintro ⟨place, leads, found⟩
    simp only [leads.legal, leads.followed, found, leads.plain, bind, Except.bind, Bool.false_eq_true,
      if_false]

/-- A file is written at the end of its path, and no folder stands there. -/
theorem leads_of_target {fs : Files} {path : String} {place : Place} (h : fs.target path = .ok place) :
    fs.Leads path place ∧ fs.node? place ≠ some .folder := by
  unfold target at h
  obtain ⟨_, legal, h⟩ := bind_eq_ok_iff.mp h
  dsimp only at h
  split at h
  · cases h
  next last ending =>
    obtain ⟨parent, followed, h⟩ := bind_eq_ok_iff.mp h
    obtain ⟨here, step, h⟩ := bind_eq_ok_iff.mp h
    split at h
    · cases h
    next free =>
      cases h
      obtain ⟨plain, other⟩ := not_or.mp free
      rw [if_neg plain] at step
      refine ⟨⟨legal, eq_false_of_ne_true plain, ?_⟩, other⟩
      rw [← List.dropLast_append_getLast? last ending, List.foldlM_append]
      refine bind_eq_ok_iff.mpr ⟨parent, followed, ?_⟩
      rw [List.foldlM_cons]
      exact bind_eq_ok_iff.mpr ⟨place, step, rfl⟩

/-! ### What a write changes -/

theorem node?_put_same {fs : Files} {place : Place} (below : place ≠ []) (node : FileNode) :
    (fs.put place node).node? place = some node := by
  simp only [node?, if_neg below, put, List.lookup_cons_self]

theorem node?_put_other {fs : Files} {place other : Place} (apart : other ≠ place) (node : FileNode) :
    (fs.put place node).node? other = fs.node? other := by
  have kept (entries : List (Place × FileNode)) :
      (entries.filter fun e => e.1 ≠ place).lookup other = entries.lookup other := by
    induction entries with
    | nil => rfl
    | cons e entries ih =>
        by_cases here : e.1 = place
        · have passed : (other == e.1) = false := beq_false_of_ne (here ▸ apart)
          rw [List.filter_cons_of_neg (by simpa using here), ih, List.lookup_cons, passed]
        · rw [List.filter_cons_of_pos (by simpa using here), List.lookup_cons, List.lookup_cons, ih]
  have first : (other == place) = false := beq_false_of_ne apart
  simp only [node?, put, List.lookup_cons, first, kept]

theorem follow_put {fs : Files} {place : Place} (free : fs.node? place ≠ some .folder)
    (node : FileNode) {path : String} {here next : Place} {name : String}
    (step : fs.follow path here name = .ok next) :
    (fs.put place node).follow path here name = .ok next := by
  have apart : here ≠ place := by
    rintro rfl
    unfold follow at step
    split at step
    · cases step
    · cases step
    next folder => exact free folder
  rw [follow, node?_put_other apart]
  exact step

theorem Leads.put {fs : Files} {path : String} {place other : Place} (h : fs.Leads path place)
    (free : fs.node? other ≠ some .folder) (node : FileNode) :
    (fs.put other node).Leads path place := by
  have walk (names : List String) (here : Place)
      (followed : names.foldlM (fs.follow path) here = .ok place) :
      names.foldlM ((fs.put other node).follow path) here = .ok place := by
    induction names generalizing here with
    | nil => exact followed
    | cons name names ih =>
        rw [List.foldlM_cons] at followed ⊢
        obtain ⟨next, step, rest⟩ := bind_eq_ok_iff.mp followed
        exact bind_eq_ok_iff.mpr ⟨next, follow_put free node step, ih next rest⟩
  exact ⟨h.legal, h.plain, walk _ _ h.followed⟩

section
variable {fs saved : Files} {path : String} {bytes : Bytes}

theorem write_eq_ok_iff : fs.write path bytes = .ok saved ↔
    ∃ place, fs.target path = .ok place ∧ fs.put place (.file bytes) = saved := by
  unfold write
  cases fs.target path <;> simp [Except.map]

theorem read_write (written : fs.write path bytes = .ok saved) : saved.read path = .ok bytes := by
  obtain ⟨place, target, rfl⟩ := write_eq_ok_iff.mp written
  obtain ⟨leads, free⟩ := leads_of_target target
  have below : place ≠ [] := by
    rintro rfl
    exact free rfl
  exact read_eq_ok_iff.mpr ⟨place, leads.put free _, node?_put_same below _⟩

/-- A file at another place is not touched. -/
theorem read_write_other (written : fs.write path bytes = .ok saved) {other : String} {kept : Bytes}
    (readable : fs.read other = .ok kept) (apart : ∀ place, fs.Leads other place → ¬fs.Leads path place) :
    saved.read other = .ok kept := by
  obtain ⟨place, target, rfl⟩ := write_eq_ok_iff.mp written
  obtain ⟨leads, free⟩ := leads_of_target target
  obtain ⟨place', leads', found⟩ := read_eq_ok_iff.mp readable
  have elsewhere : place' ≠ place := by
    rintro rfl
    exact apart _ leads' leads
  exact read_eq_ok_iff.mpr ⟨place', leads'.put free _, (node?_put_other elsewhere _).trans found⟩

end

end Files

end TapeChain
