import Mathlib.Logic.Function.Basic
import Brainfuck.CommandLine.FileTree
import Brainfuck.Proofs.Edits

namespace Brainfuck.CommandLine

inductive Entry where
  | file (bytes : List UInt8)
  | folder
  deriving DecidableEq, Repr

namespace FileTree

def entry : FileTree → Entry
  | file bytes => .file bytes
  | folder _ => .folder

def entryAt (t : FileTree) (location : List String) : Option Entry := (t.find? location).map entry

theorem entryAt_nil (t : FileTree) : t.entryAt [] = some t.entry := by
  cases t <;> rfl

theorem entryAt_file_cons (bytes : List UInt8) (name : String) (names : List String) :
    (file bytes).entryAt (name :: names) = none := rfl

theorem entryAt_folder_cons (es : List (String × FileTree)) (name : String) (names : List String) :
    (folder es).entryAt (name :: names) = (es.lookup name).bind (·.entryAt names) := by
  rw [entryAt, find?]
  cases es.lookup name <;> rfl

theorem entryAt_eq_folder {t : FileTree} {location : List String} :
    t.entryAt location = some .folder ↔ ∃ es, t.find? location = some (folder es) := by
  rw [entryAt, Option.map_eq_some_iff]
  constructor
  · rintro ⟨_ | es, h, he⟩
    · cases he
    · exact ⟨es, h⟩
  · rintro ⟨es, h⟩
    exact ⟨_, h, rfl⟩

theorem entryAt_eq_file {t : FileTree} {location : List String} {bytes : List UInt8} :
    t.entryAt location = some (.file bytes) ↔ t.find? location = some (file bytes) := by
  rw [entryAt, Option.map_eq_some_iff]
  constructor
  · rintro ⟨_ | es, h, he⟩
    · cases he
      exact h
    · cases he
  · intro h
    exact ⟨_, h, rfl⟩

section Put

variable {es es' : List (String × FileTree)} {name : String} {t : FileTree}

theorem lookup_append_new (h : es.lookup name = none) (other : String) :
    (es ++ [(name, t)]).lookup other = if other = name then some t else es.lookup other := by
  rw [List.lookup_append]
  by_cases ho : other = name
  · simp [ho, h]
  · have hne : (other == name) = false := beq_false_of_ne ho
    simp [List.lookup_cons, hne, ho]

theorem lookup_map_replace (other : String) :
    (es.map fun e => if e.1 = name then (name, t) else e).lookup other =
      if other = name then (es.lookup name).map fun _ => t else es.lookup other := by
  induction es with
  | nil => simp
  | cons e es ih =>
    obtain ⟨key, u⟩ := e
    by_cases hk : key = name
    · subst hk
      by_cases ho : other = key
      · simp [ho]
      · have hne : (other == key) = false := beq_false_of_ne ho
        simpa [List.lookup_cons, hne, ho] using ih
    · have hne : (name == key) = false := beq_false_of_ne (Ne.symm hk)
      by_cases ho : other = key
      · simp [ho, hk]
      · have hne' : (other == key) = false := beq_false_of_ne ho
        simpa [List.lookup_cons, hne, hne', hk] using ih

theorem lookup_replaced {u : FileTree} (h : es.lookup name = some u) (other : String) :
    (es.map fun e => if e.1 = name then (name, t) else e).lookup other =
      if other = name then some t else es.lookup other := by
  rw [lookup_map_replace, h, Option.map_some]

theorem put_new (bytes : List UInt8) (h : es.lookup name = none) :
    (folder es).put bytes [name] = folder (es ++ [(name, file bytes)]) := by
  simp [put, h]

theorem put_old (bytes : List UInt8) (names : List String) (h : es.lookup name = some t) :
    (folder es).put bytes (name :: names) =
      folder (es.map fun e => if e.1 = name then (name, t.put bytes names) else e) := by
  simp [put, h]

theorem entryAt_folder_update {names : List String} {e : Entry}
    (hes : ∀ other, es'.lookup other = if other = name then some t else es.lookup other)
    (ht : ∀ others, t.entryAt others =
      if others = names then some e else (es.lookup name).bind (·.entryAt others)) :
    (folder es').entryAt = Function.update (folder es).entryAt (name :: names) (some e) := by
  funext location
  match location with
  | [] => rfl
  | other :: others =>
    rw [entryAt_folder_cons, hes]
    by_cases ho : other = name
    · subst ho
      rw [if_pos rfl, Option.bind_some, ht]
      by_cases hos : others = names
      · rw [if_pos hos, hos, Function.update_self]
      · rw [if_neg hos, Function.update_of_ne (by simpa using hos), entryAt_folder_cons]
    · rw [if_neg ho, Function.update_of_ne (by simp [ho]), entryAt_folder_cons]

theorem put_entryAt (bytes : List UInt8) (parents : List String)
    (hfolder : t.entryAt parents = some .folder)
    (hfree : t.entryAt (parents ++ [name]) ≠ some .folder) :
    (t.put bytes (parents ++ [name])).entryAt =
      Function.update t.entryAt (parents ++ [name]) (some (.file bytes)) := by
  -- down the parents to the folder of the file, where the name is new or an old file's
  induction parents generalizing t with
  | nil =>
    cases t with
    | file old => cases hfolder
    | folder es =>
      rw [List.nil_append] at hfree ⊢
      rw [entryAt_folder_cons] at hfree
      cases hl : es.lookup name with
      | none =>
        rw [put_new bytes hl]
        refine entryAt_folder_update (lookup_append_new hl) ?_
        rintro (_ | ⟨other, others⟩) <;> simp [hl, entryAt_nil, entryAt_file_cons, entry]
      | some u =>
        cases u with
        | folder fs => simp [hl, entryAt_nil, entry] at hfree
        | file old =>
          rw [put_old bytes [] hl]
          refine entryAt_folder_update (lookup_replaced hl) ?_
          rintro (_ | ⟨other, others⟩) <;> simp [hl, put, entryAt_nil, entryAt_file_cons, entry]
  | cons parent parents ih =>
    cases t with
    | file old => cases hfolder
    | folder es =>
      rw [List.cons_append] at hfree ⊢
      rw [entryAt_folder_cons] at hfolder hfree
      cases hl : es.lookup parent with
      | none =>
        rw [hl] at hfolder
        cases hfolder
      | some u =>
        rw [hl] at hfolder hfree
        have hu := ih hfolder hfree
        rw [put_old bytes _ hl]
        refine entryAt_folder_update (lookup_replaced hl) ?_
        intro others
        rw [hu, hl, Option.bind_some, Function.update_apply]

end Put

section Follow

variable {t t' : FileTree} {here there : List String} {parts : List String}

def beyond (location : List String) (part : String) : List String :=
  if part = "" ∨ part = "." then location
  else if part = ".." then location.dropLast
  else location ++ [part]

theorem follow_nil : t.follow here [] = .ok there ↔ there = here := by
  rw [follow, Except.ok.injEq, eq_comm]

theorem follow_cons {part : String} : t.follow here (part :: parts) = .ok there ↔
    t.entryAt here = some .folder ∧ t.follow (beyond here part) parts = .ok there := by
  rw [entryAt_eq_folder, follow, beyond]
  cases h : t.find? here with
  | none => simp
  | some u =>
    cases u with
    | file bytes => simp
    | folder es =>
      simp only [Option.some.injEq, FileTree.folder.injEq, exists_eq', true_and]
      split
      · rfl
      · split <;> rfl

theorem follow_append_singleton {part : String} :
    t.follow here (parts ++ [part]) = .ok there ↔
      ∃ middle, t.follow here parts = .ok middle ∧ t.entryAt middle = some .folder ∧
        there = beyond middle part := by
  induction parts generalizing here with
  | nil => simp [follow_cons, follow_nil]
  | cons first parts ih => simp [follow_cons, ih, and_assoc]

theorem follow_of_folders
    (hfolders : ∀ location, t.entryAt location = some .folder → t'.entryAt location = some .folder)
    (h : t.follow here parts = .ok there) : t'.follow here parts = .ok there := by
  induction parts generalizing here with
  | nil => exact h
  | cons part parts ih =>
    obtain ⟨hhere, hrest⟩ := follow_cons.mp h
    exact follow_cons.mpr ⟨hfolders _ hhere, ih hrest⟩

theorem entryAt_of_follow (h : t.follow here parts = .ok there)
    (hthere : t.entryAt there = some .folder) : t.entryAt here = some .folder := by
  cases parts with
  | nil => rwa [follow_nil.mp h] at hthere
  | cons part parts => exact (follow_cons.mp h).1

theorem follow_of_filter (h : t.follow here (parts.filter (· ≠ "")) = .ok there)
    (hthere : t.entryAt there = some .folder) : t.follow here parts = .ok there := by
  induction parts generalizing here with
  | nil => exact h
  | cons part parts ih =>
    by_cases hp : part = ""
    · rw [List.filter_cons_of_neg (by simpa using hp)] at h
      have hbeyond : beyond here part = here := if_pos (.inl hp)
      rw [follow_cons, hbeyond]
      exact ⟨entryAt_of_follow h hthere, ih h⟩
    · rw [List.filter_cons_of_pos (by simpa using hp), follow_cons] at h
      exact follow_cons.mpr ⟨h.1, ih h.2⟩

end Follow

end FileTree

namespace Workspace

open FileTree

variable {w w' : Workspace} {path : String}

theorem eq_append_of_getLast? {parts : List String} {name : String}
    (hname : (parts.filter (· ≠ "")).getLast? = some name) (hlast : parts.getLast? ≠ some "") :
    name ≠ "" ∧ ∃ front, parts = front ++ [name] ∧
      (parts.filter (· ≠ "")).dropLast = front.filter (· ≠ "") := by
  rcases List.eq_nil_or_concat parts with rfl | ⟨front, last, rfl⟩
  · cases hname
  · rw [List.concat_eq_append] at hname hlast ⊢
    rw [List.getLast?_concat] at hlast
    have hempty : last ≠ "" := fun he => hlast (by rw [he])
    have hfilter : (front ++ [last]).filter (· ≠ "") = front.filter (· ≠ "") ++ [last] := by
      simp [hempty]
    rw [hfilter, List.getLast?_concat, Option.some.injEq] at hname
    subst hname
    exact ⟨hempty, front, rfl, by rw [hfilter, List.dropLast_concat]⟩

theorem lookup_of_follow {t : FileTree} {location : List String} (hpath : path ≠ "")
    (hfollow : w.tree.follow (w.startOf path) (path.splitOn "/") = .ok location)
    (hfind : w.tree.find? location = some t) : w.lookup path = .ok t := by
  rw [lookup, if_neg hpath]
  refine bind_eq_ok.mpr ⟨location, hfollow, ?_⟩
  rw [hfind]
  rfl

theorem exists_of_place {location : List String} (h : w.place path = .ok location) :
    path ≠ "" ∧ ∃ parents name parts, location = parents ++ [name] ∧
      path.splitOn "/" = parts ++ [name] ∧ name ≠ "" ∧ name ≠ "." ∧ name ≠ ".." ∧
      w.tree.follow (w.startOf path) (parts.filter (· ≠ "")) = .ok parents ∧
      w.tree.entryAt parents = some .folder ∧ w.tree.entryAt location ≠ some .folder := by
  rw [place] at h
  by_cases hpath : path = ""
  · rw [if_pos hpath] at h
    cases h
  rw [if_neg hpath] at h
  refine ⟨hpath, ?_⟩
  obtain ⟨parents, hfollow, h⟩ := bind_eq_ok.mp h
  cases hfind : w.tree.find? parents with
  | none =>
    rw [hfind] at h
    cases h
  | some u =>
    cases u with
    | file bytes =>
      rw [hfind] at h
      cases h
    | folder es =>
      simp only [hfind] at h
      cases hlast : ((path.splitOn "/").filter (· ≠ "")).getLast? with
      | none =>
        simp only [hlast] at h
        cases h
      | some name =>
        simp only [hlast] at h
        by_cases hname : (path.splitOn "/").getLast? = some "" ∨ name = "." ∨ name = ".."
        · rw [if_pos hname] at h
          cases h
        rw [if_neg hname] at h
        simp only [not_or] at hname
        obtain ⟨hempty, parts, hparts, hdrop⟩ := eq_append_of_getLast? hlast hname.1
        rw [hdrop] at hfollow
        split at h
        · cases h
        · rename_i hfree
          obtain rfl := pure_eq_ok.mp h
          refine ⟨parents, name, parts, rfl, hparts, hempty, hname.2.1, hname.2.2, hfollow,
            entryAt_eq_folder.mpr ⟨es, hfind⟩, ?_⟩
          rw [Ne, entryAt_eq_folder]
          rintro ⟨fs, hfs⟩
          exact hfree fs hfs

theorem write_entryAt (bytes : List UInt8) {location : List String}
    (h : w.place path = .ok location) :
    (w.tree.put bytes location).entryAt =
      Function.update w.tree.entryAt location (some (.file bytes)) := by
  obtain ⟨-, parents, name, parts, rfl, -, -, -, -, -, hparents, hfree⟩ := exists_of_place h
  exact put_entryAt bytes parents hparents hfree

theorem lookup_write {bytes : List UInt8} (h : w.write path bytes = .ok w') :
    w'.lookup path = .ok (.file bytes) := by
  obtain ⟨location, hplace, h⟩ := bind_eq_ok.mp h
  obtain rfl := pure_eq_ok.mp h
  have hentry := write_entryAt bytes hplace
  obtain ⟨hpath, parents, name, parts, rfl, hparts, hempty, hdot, hdots, hfollow, hparents, hfree⟩ :=
    exists_of_place hplace
  have hkept (other : List String) (hother : w.tree.entryAt other = some .folder) :
      (w.tree.put bytes (parents ++ [name])).entryAt other = some .folder := by
    have hne : other ≠ parents ++ [name] := by
      rintro rfl
      exact hfree hother
    rw [hentry, Function.update_of_ne hne, hother]
  have hfind : (w.tree.put bytes (parents ++ [name])).find? (parents ++ [name]) =
      some (.file bytes) := by
    rw [← entryAt_eq_file, hentry, Function.update_self]
  refine lookup_of_follow hpath ?_ hfind
  rw [hparts]
  refine follow_of_folders hkept (follow_append_singleton.mpr ⟨parents, ?_, hparents, ?_⟩)
  · exact follow_of_filter hfollow hparents
  · simp [beyond, hempty, hdot, hdots]

end Workspace

end Brainfuck.CommandLine
