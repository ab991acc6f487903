import LittleMan.Directory
import Mathlib.Data.List.Basic

/-! Files read after they are written. Putting a file where no folder lies keeps every way through
the folders, so a path goes on leading where it led. -/

namespace LittleMan

namespace Directory

variable {directory after : Directory} {folder location : Location} {name path other : String}
  {bytes contents : List UInt8}

/-- A name leads to a file or to nothing yet, so that a file can be put there. -/
def Free (directory : Directory) (folder : Location) (name : String) : Prop :=
  (∃ contents, directory.find folder name = .ok (.file contents)) ∨
    directory.find folder name = .error .notFound

theorem Free.name_length (h : directory.Free folder name) :
    ¬ name.utf8ByteSize > Path.maxNameLength := by
  intro hl
  rcases h with ⟨contents, hf⟩ | hf
  · rw [find, if_pos hl] at hf
    cases hf
  · rw [find, if_pos hl] at hf
    cases hf

theorem isFolder_put (h : directory.isFolder location = true) (place : Location)
    (bytes : List UInt8) : (directory.put place bytes).isFolder location = true := by
  unfold isFolder at h ⊢
  rw [Bool.or_eq_true] at h ⊢
  rcases h with h | h
  · exact .inl h
  · obtain ⟨⟨file, old⟩, hm, hf⟩ := List.any_eq_true.1 h
    refine .inr (List.any_eq_true.2 ?_)
    by_cases he : file = place
    · subst he
      exact ⟨(file, bytes), List.mem_cons_self, hf⟩
    · refine ⟨(file, old), List.mem_cons_of_mem _ ?_, hf⟩
      exact List.mem_filter.2 ⟨hm, bne_iff_ne.2 he⟩

theorem find_of_put_self (h : directory.Free folder name) (bytes : List UInt8) :
    (directory.put (folder ++ [name]) bytes).find folder name = .ok (.file bytes) := by
  rw [find, if_neg h.name_length, file?_put_self]

theorem find_folder_put (hfree : directory.Free folder name) {place : Location} {next : String}
    (h : directory.find place next = .ok .folder) (bytes : List UInt8) :
    (directory.put (folder ++ [name]) bytes).find place next = .ok .folder := by
  have hne : place ++ [next] ≠ folder ++ [name] := by
    intro he
    obtain ⟨rfl, hl⟩ := List.append_inj' he rfl
    cases hl
    rcases hfree with ⟨contents, hf⟩ | hf
    · rw [h] at hf
      cases hf
    · rw [h] at hf
      cases hf
  rw [find] at h ⊢
  split at h
  · cases h
  · next hl =>
    rw [if_neg hl, file?_put_of_ne _ _ hne]
    split at h
    · cases h
    · split at h
      · next hfold => rw [if_pos (isFolder_put hfold _ _)]
      · cases h

theorem find_file_put {place : Location} {next : String} (hne : place ++ [next] ≠ location)
    (h : directory.find place next = .ok (.file contents)) (bytes : List UInt8) :
    (directory.put location bytes).find place next = .ok (.file contents) := by
  rw [find] at h ⊢
  split at h
  · cases h
  · next hl =>
    rw [if_neg hl, file?_put_of_ne _ _ hne]
    split at h
    · next hf => exact h
    · split at h <;> cases h

theorem enter_put (hfree : directory.Free folder name) {place next : Location} {step : String}
    (h : directory.enter place step = .ok next) (bytes : List UInt8) :
    (directory.put (folder ++ [name]) bytes).enter place step = .ok next := by
  rw [enter] at h ⊢
  by_cases hdot : step = "."
  · rw [if_pos hdot] at h ⊢
    exact h
  · by_cases hup : step = ".."
    · rw [if_neg hdot, if_pos hup] at h ⊢
      exact h
    · rw [if_neg hdot, if_neg hup] at h ⊢
      split at h
      · cases h
      · next hf =>
        rw [find_folder_put hfree hf]
        exact h
      · cases h

theorem foldlM_enter_put (hfree : directory.Free folder name) {steps : List String}
    {place last : Location} (h : steps.foldlM directory.enter place = .ok last)
    (bytes : List UInt8) :
    steps.foldlM (directory.put (folder ++ [name]) bytes).enter place = .ok last := by
  induction steps generalizing place with
  | nil => exact h
  | cons step steps ih =>
    rw [List.foldlM_cons] at h ⊢
    cases he : directory.enter place step with
    | error error =>
      rw [he] at h
      cases h
    | ok next =>
      rw [he] at h
      rw [enter_put hfree he]
      exact ih h

/-- A path that names something in a folder, once the folders along it are entered. -/
structure Leads (directory : Directory) (path : String) (folder : Location) (name : String) :
    Prop where
  legal : ¬ path.toList.contains (Char.ofNat 0) = true
  nonempty : ¬ path.isEmpty = true
  length : ¬ path.utf8ByteSize > Path.maxLength
  last : (Path.names path).getLast? = some name
  enter : (Path.names path).dropLast.foldlM directory.enter
    (if Path.isAbsolute path then ["/"] else []) = .ok folder
  proper : ¬ (name = "." ∨ name = "..")

theorem follow_eq_entry_iff {slash : Bool} :
    directory.follow path = .ok (.entry folder name slash) ↔
      directory.Leads path folder name ∧ Path.endsInSlash path = slash := by
  apply Iff.intro
  · intro h
    rw [follow] at h
    split at h
    · cases h
    · next hlegal =>
      split at h
      · cases h
      · next hnonempty =>
        split at h
        · cases h
        · next hlength =>
          split at h
          · cases h
          · next hlast =>
            dsimp only at h
            split at h
            · cases h
            · next henter =>
              split at h
              · cases h
              · next hproper =>
                cases h
                exact ⟨⟨hlegal, hnonempty, hlength, hlast, henter, hproper⟩, rfl⟩
  · intro hx
    obtain ⟨h, hs⟩ := hx
    rw [follow, if_neg h.legal, if_neg h.nonempty, if_neg h.length]
    simp only [h.last, h.enter, if_neg h.proper, hs]

theorem Leads.put (h : directory.Leads path folder name) {place : Location} {next : String}
    (hfree : directory.Free place next) (bytes : List UInt8) :
    (directory.put (place ++ [next]) bytes).Leads path folder name :=
  ⟨h.legal, h.nonempty, h.length, h.last, foldlM_enter_put hfree h.enter bytes, h.proper⟩

theorem read_eq_ok_iff :
    directory.read path = .ok contents ↔
      ∃ folder name, directory.Leads path folder name ∧ Path.endsInSlash path = false ∧
        directory.find folder name = .ok (.file contents) := by
  apply Iff.intro
  · intro h
    rw [read] at h
    split at h
    · cases h
    · cases h
    · next folder name slash hf =>
      obtain ⟨hl, hs⟩ := follow_eq_entry_iff.1 hf
      split at h
      · next hfind =>
        split at h
        · cases h
        · next hslash =>
          cases h
          exact ⟨folder, name, hl, hs.trans (Bool.eq_false_iff.2 hslash), hfind⟩
      · cases h
      · cases h
  · intro hx
    obtain ⟨folder, name, hl, hs, hfind⟩ := hx
    rw [read, follow_eq_entry_iff.2 ⟨hl, hs⟩]
    simp only [hfind, Bool.false_eq_true, if_false]

theorem write_eq_ok_iff :
    directory.write path bytes = .ok after ↔
      ∃ folder name, directory.Leads path folder name ∧ Path.endsInSlash path = false ∧
        directory.Free folder name ∧ directory.put (folder ++ [name]) bytes = after := by
  apply Iff.intro
  · intro h
    rw [write] at h
    split at h
    · cases h
    · cases h
    · cases h
    · next folder name hf =>
      obtain ⟨hl, hs⟩ := follow_eq_entry_iff.1 hf
      split at h
      · next hfind =>
        cases h
        exact ⟨folder, name, hl, hs, .inl ⟨_, hfind⟩, rfl⟩
      · next hfind =>
        cases h
        exact ⟨folder, name, hl, hs, .inr hfind, rfl⟩
      · cases h
      · cases h
  · intro hx
    obtain ⟨folder, name, hl, hs, hfree, rfl⟩ := hx
    rw [write, follow_eq_entry_iff.2 ⟨hl, hs⟩]
    rcases hfree with ⟨contents, hfind⟩ | hfind
    · simp only [hfind]
    · simp only [hfind]

/-- A path that takes one file takes any other. -/
theorem write_of_write (h : directory.write path bytes = .ok after) (contents : List UInt8) :
    ∃ other, directory.write path contents = .ok other := by
  obtain ⟨folder, name, hl, hs, hfree, -⟩ := write_eq_ok_iff.1 h
  exact ⟨_, write_eq_ok_iff.2 ⟨folder, name, hl, hs, hfree, rfl⟩⟩

/-- What is written at a path is what is read there. -/
theorem read_write (h : directory.write path bytes = .ok after) : after.read path = .ok bytes := by
  obtain ⟨folder, name, hl, hs, hfree, rfl⟩ := write_eq_ok_iff.1 h
  exact read_eq_ok_iff.2 ⟨folder, name, hl.put hfree bytes, hs, find_of_put_self hfree bytes⟩

theorem Leads.extension_eq (h : directory.Leads path folder name)
    (h' : directory.Leads other location name) : Path.extension? path = Path.extension? other := by
  have hname (path : String) (hl : (Path.names path).getLast? = some name) :
      ((Path.names path).filter (· != ".")).getLast? = some name := by
    obtain ⟨names, hn⟩ := List.getLast?_eq_some_iff.1 hl
    have hdot : (name != ".") = true := bne_iff_ne.2 fun he => h.proper (.inl he)
    rw [hn, List.filter_append, List.filter_cons_of_pos (p := (· != ".")) hdot]
    exact List.getLast?_concat
  rw [Path.extension?, Path.extension?, hname path h.last, hname other h'.last]

/-- Writing a file keeps every file that is read at a path of another extension. -/
theorem read_write_of_extension_ne (h : directory.write path bytes = .ok after)
    (hr : directory.read other = .ok contents)
    (hne : Path.extension? other ≠ Path.extension? path) : after.read other = .ok contents := by
  obtain ⟨folder, name, hl, hs, hfree, rfl⟩ := write_eq_ok_iff.1 h
  obtain ⟨place, next, hl', hs', hfind⟩ := read_eq_ok_iff.1 hr
  have hplace : place ++ [next] ≠ folder ++ [name] := by
    intro he
    obtain ⟨rfl, hn⟩ := List.append_inj' he rfl
    cases hn
    exact hne (hl'.extension_eq hl)
  exact read_eq_ok_iff.2 ⟨place, next, hl'.put hfree bytes, hs', find_file_put hplace hfind bytes⟩

/-- The location that a path names, be there a file or not. -/
def place? (directory : Directory) (path : String) : Option Location :=
  match directory.follow path with
  | .ok (.entry folder name false) =>
    if name.utf8ByteSize > Path.maxNameLength then none else some (folder ++ [name])
  | _ => none

theorem place?_eq_some_iff :
    directory.place? path = some location ↔
      ∃ folder name, directory.Leads path folder name ∧ Path.endsInSlash path = false ∧
        ¬ name.utf8ByteSize > Path.maxNameLength ∧ folder ++ [name] = location := by
  apply Iff.intro
  · intro h
    rw [place?] at h
    split at h
    · next folder name hf =>
      obtain ⟨hl, hs⟩ := follow_eq_entry_iff.1 hf
      split at h
      · cases h
      · next hn => exact ⟨folder, name, hl, hs, hn, Option.some.inj h⟩
    · cases h
  · intro hx
    obtain ⟨folder, name, hl, hs, hn, rfl⟩ := hx
    rw [place?, follow_eq_entry_iff.2 ⟨hl, hs⟩]
    exact if_neg hn

theorem find_eq_file_iff :
    directory.find folder name = .ok (.file contents) ↔
      ¬ name.utf8ByteSize > Path.maxNameLength ∧
        directory.file? (folder ++ [name]) = some contents := by
  rw [find]
  apply Iff.intro
  · intro h
    split at h
    · cases h
    · next hn =>
      split at h
      · next hf =>
        cases h
        exact ⟨hn, hf⟩
      · split at h <;> cases h
  · intro hx
    rw [if_neg hx.1, hx.2]

/-- What is read at a path is the file at the location that it names. -/
theorem read_eq_ok_iff_file? :
    directory.read path = .ok contents ↔
      ∃ location, directory.place? path = some location ∧
        directory.file? location = some contents := by
  rw [read_eq_ok_iff]
  apply Iff.intro
  · intro hx
    obtain ⟨folder, name, hl, hs, hfind⟩ := hx
    obtain ⟨hn, hf⟩ := find_eq_file_iff.1 hfind
    exact ⟨_, place?_eq_some_iff.2 ⟨folder, name, hl, hs, hn, rfl⟩, hf⟩
  · intro hx
    obtain ⟨location, hp, hf⟩ := hx
    obtain ⟨folder, name, hl, hs, hn, rfl⟩ := place?_eq_some_iff.1 hp
    exact ⟨folder, name, hl, hs, find_eq_file_iff.2 ⟨hn, hf⟩⟩

theorem exists_place_of_write (h : directory.write path bytes = .ok after) :
    ∃ location, directory.place? path = some location ∧ directory.put location bytes = after := by
  obtain ⟨folder, name, hl, hs, hfree, ha⟩ := write_eq_ok_iff.1 h
  exact ⟨_, place?_eq_some_iff.2 ⟨folder, name, hl, hs, hfree.name_length, rfl⟩, ha⟩

/-- Writing a file changes no other one. -/
theorem file?_write (h : directory.write path bytes = .ok after)
    (hp : directory.place? path = some location) (spot : Location) :
    after.file? spot = if spot = location then some bytes else directory.file? spot := by
  obtain ⟨written, hw, rfl⟩ := exists_place_of_write h
  obtain rfl := Option.some.inj (hp.symm.trans hw)
  by_cases hs : spot = location
  · rw [if_pos hs, hs, file?_put_self]
  · rw [if_neg hs, file?_put_of_ne _ _ hs]

/-- A path goes on naming what it named. -/
theorem place?_write (h : directory.write path bytes = .ok after)
    (hp : directory.place? other = some location) : after.place? other = some location := by
  obtain ⟨folder, name, -, -, hfree, rfl⟩ := write_eq_ok_iff.1 h
  obtain ⟨place, next, hl, hs, hn, hloc⟩ := place?_eq_some_iff.1 hp
  exact place?_eq_some_iff.2 ⟨place, next, hl.put hfree bytes, hs, hn, hloc⟩

end Directory

end LittleMan
