import S4LibLite.Common.CStr

/-!
# Searching a folder (`s4filesystem.cpp`)

`search_file` walks a folder in the order of its iterator, and the folders in it where it meets
them. Links count as what they lead to, and no folder leads back to one above it.

* `mem_search_iff`, which files are found;
* `searchFile_spec`, each of them once.
-/

namespace S4LibLite
namespace Filesystem

/-- The components of a path. -/
abbrev Path := List Bytes

/-- What `directory_iterator` finds in a folder, in its order. -/
inductive Entries where
  | nil
  | file (name : Bytes) (rest : Entries)
  | folder (name : Bytes) (entries rest : Entries)
deriving DecidableEq

/-- What is at a path. -/
inductive Target where
  | missing
  | file
  | folder (entries : Entries)
deriving DecidableEq

/-- The loop of `search_file` over a folder, for which it calls itself on the folders inside. -/
def Entries.search (fileName : Bytes) (recursive : Bool) : Path → Entries → List Path
  | _, .nil => []
  | root, .file name rest =>
    if name = fileName then (root ++ [name]) :: rest.search fileName recursive root
    else rest.search fileName recursive root
  | root, .folder name entries rest =>
    if recursive then
      entries.search fileName recursive (root ++ [name]) ++ rest.search fileName recursive root
    else rest.search fileName recursive root

/-- `search_file`; `directory_iterator` throws for a file with another name. -/
def searchFile (root : Path) (fileName : Bytes) (recursive : Bool) : Target → Option (List Path)
  | .missing => some []
  | .file => if root.getLast? = some fileName then some [root] else none
  | .folder entries => some (entries.search fileName recursive root)

/-! ## What there is -/

namespace Entries

/-- A path from a folder leads to a file. -/
inductive HasFile : Entries → Path → Prop
  | here (name : Bytes) (rest : Entries) : HasFile (.file name rest) [name]
  | inside (name : Bytes) (rest : Entries) {entries : Entries} {q : Path}
    (h : HasFile entries q) : HasFile (.folder name entries rest) (name :: q)
  | behindFile (name : Bytes) {rest : Entries} {q : Path} (h : HasFile rest q) :
    HasFile (.file name rest) q
  | behindFolder (name : Bytes) (entries : Entries) {rest : Entries} {q : Path}
    (h : HasFile rest q) : HasFile (.folder name entries rest) q

/-- The names in a folder. -/
def names : Entries → List Bytes
  | .nil => []
  | .file name rest => name :: rest.names
  | .folder name _ rest => name :: rest.names

/-- No folder has two entries with one name. -/
def Distinct : Entries → Prop
  | .nil => True
  | .file name rest => name ∉ rest.names ∧ rest.Distinct
  | .folder name entries rest => name ∉ rest.names ∧ entries.Distinct ∧ rest.Distinct

variable {entries rest : Entries} {name fileName : Bytes} {recursive : Bool} {root p q : Path}

theorem hasFile_nil_iff : ¬ HasFile .nil q := nofun

theorem hasFile_file_iff : HasFile (.file name rest) q ↔ q = [name] ∨ rest.HasFile q := by
  constructor
  · intro h
    cases h with
    | here => exact Or.inl rfl
    | behindFile _ h => exact Or.inr h
  · rintro (rfl | h)
    · exact .here name rest
    · exact .behindFile name h

theorem hasFile_folder_iff : HasFile (.folder name entries rest) q
    ↔ (∃ inner, q = name :: inner ∧ entries.HasFile inner) ∨ rest.HasFile q := by
  constructor
  · intro h
    cases h with
    | inside _ _ h => exact Or.inl ⟨_, rfl, h⟩
    | behindFolder _ _ h => exact Or.inr h
  · rintro (⟨inner, rfl, h⟩ | h)
    · exact .inside name rest h
    · exact .behindFolder name entries h

/-- Such a path begins with an entry. -/
theorem HasFile.head (h : entries.HasFile q) : ∃ n ∈ entries.names, q.head? = some n := by
  induction h with
  | here name rest => exact ⟨name, List.mem_cons_self, rfl⟩
  | inside name rest h ih => exact ⟨name, List.mem_cons_self, rfl⟩
  | behindFile name h ih =>
    obtain ⟨n, hn, hq⟩ := ih
    exact ⟨n, List.mem_cons_of_mem _ hn, hq⟩
  | behindFolder name entries h ih =>
    obtain ⟨n, hn, hq⟩ := ih
    exact ⟨n, List.mem_cons_of_mem _ hn, hq⟩

theorem HasFile.ne_nil (h : entries.HasFile q) : q ≠ [] := by
  obtain ⟨n, -, hq⟩ := h.head
  exact fun hnil => absurd (hnil ▸ hq) (by simp)

/-! ## What is found -/

/-- **The files that are found**: those with the name, in all folders or in the first one. -/
theorem mem_search_iff : p ∈ entries.search fileName recursive root
    ↔ ∃ q, p = root ++ q ∧ entries.HasFile q ∧ q.getLast? = some fileName
      ∧ (recursive = true ∨ q.length = 1) := by
  induction entries generalizing root p with
  | nil =>
    refine iff_of_false List.not_mem_nil ?_
    rintro ⟨q, -, h, -⟩
    exact hasFile_nil_iff h
  | file name rest ih =>
    have hsplit : p ∈ (Entries.file name rest).search fileName recursive root
        ↔ (name = fileName ∧ p = root ++ [name]) ∨ p ∈ rest.search fileName recursive root := by
      rw [search]
      split
      · rename_i hname
        rw [List.mem_cons, and_iff_right hname]
      · rename_i hname
        rw [or_iff_right fun h => hname h.1]
    rw [hsplit, ih]
    constructor
    · rintro (⟨rfl, rfl⟩ | ⟨q, hp, hq, hlast⟩)
      · exact ⟨[name], rfl, .here name rest, rfl, Or.inr rfl⟩
      · exact ⟨q, hp, .behindFile name hq, hlast⟩
    · rintro ⟨q, rfl, hq, hlast, hdepth⟩
      rcases hasFile_file_iff.mp hq with rfl | hq
      · exact Or.inl ⟨Option.some.inj hlast, rfl⟩
      · exact Or.inr ⟨q, rfl, hq, hlast, hdepth⟩
  | folder name entries rest ihEntries ihRest =>
    have hsplit : p ∈ (Entries.folder name entries rest).search fileName recursive root
        ↔ (recursive = true ∧ p ∈ entries.search fileName recursive (root ++ [name]))
          ∨ p ∈ rest.search fileName recursive root := by
      rw [search]
      split
      · rename_i hrec
        rw [List.mem_append, and_iff_right hrec]
      · rename_i hrec
        rw [or_iff_right fun h => hrec h.1]
    rw [hsplit, ihEntries, ihRest]
    constructor
    · rintro (⟨hrec, q, hp, hq, hlast, -⟩ | ⟨q, hp, hq, hlast⟩)
      · refine ⟨name :: q, by rw [hp, List.append_assoc, List.singleton_append],
          .inside name rest hq, ?_, Or.inl hrec⟩
        rw [List.getLast?_cons_of_ne_nil hq.ne_nil, hlast]
      · exact ⟨q, hp, .behindFolder name entries hq, hlast⟩
    · rintro ⟨q, rfl, hq, hlast, hdepth⟩
      rcases hasFile_folder_iff.mp hq with ⟨inner, rfl, hinner⟩ | hq
      · -- a file inside is not in the folder itself
        have hlen := List.length_pos_of_ne_nil hinner.ne_nil
        rw [List.length_cons] at hdepth
        have hrec : recursive = true := hdepth.resolve_right (by omega)
        rw [List.getLast?_cons_of_ne_nil hinner.ne_nil] at hlast
        exact Or.inl ⟨hrec, inner, by rw [List.append_assoc, List.singleton_append], hinner, hlast,
          Or.inl hrec⟩
      · exact Or.inr ⟨q, rfl, hq, hlast, hdepth⟩

/-- What is found begins with an entry of the folder. -/
theorem head_of_mem_search (h : root ++ q ∈ entries.search fileName recursive root) :
    ∃ n ∈ entries.names, q.head? = some n := by
  obtain ⟨q', hq', hfile, -⟩ := mem_search_iff.mp h
  obtain rfl := List.append_cancel_left hq'
  exact hfile.head

/-- No file is found twice. -/
theorem nodup_search (h : entries.Distinct) : (entries.search fileName recursive root).Nodup := by
  induction entries generalizing root with
  | nil => exact List.nodup_nil
  | file name rest ih =>
    rw [search]
    split
    · refine List.nodup_cons.mpr ⟨fun hmem => ?_, ih h.2⟩
      obtain ⟨n, hn, hq⟩ := head_of_mem_search hmem
      exact h.1 (Option.some.inj hq ▸ hn)
    · exact ih h.2
  | folder name entries rest ihEntries ihRest =>
    rw [search]
    split
    · refine List.nodup_append.mpr ⟨ihEntries h.2.1, ihRest h.2.2, fun a ha b hb hab => ?_⟩
      subst hab
      obtain ⟨q, rfl, -⟩ := mem_search_iff.mp ha
      rw [List.append_assoc, List.singleton_append] at hb
      obtain ⟨n, hn, hq⟩ := head_of_mem_search hb
      exact h.1 (Option.some.inj hq ▸ hn)
    · exact ihRest h.2.2

/-- Without the folders inside, the same files of the folder itself in the same order. -/
theorem search_sublist : (entries.search fileName false root).Sublist
    (entries.search fileName true root) := by
  induction entries with
  | nil => exact List.Sublist.refl _
  | file name rest ih =>
    rw [search, search]
    split
    · exact ih.cons_cons _
    · exact ih
  | folder name entries rest _ ih =>
    rw [search, search, if_neg Bool.false_ne_true, if_pos rfl]
    exact ih.trans (List.sublist_append_right _ _)

end Entries

/-- **Searching a folder** finds each file with the name once: of all folders inside, or only the
folder's own, in the order of the full search. -/
theorem searchFile_spec {entries : Entries} (h : entries.Distinct) (root : Path) (fileName : Bytes)
    (recursive : Bool) : ∃ found, searchFile root fileName recursive (.folder entries) = some found
      ∧ found.Nodup ∧ found.Sublist (entries.search fileName true root)
      ∧ ∀ p, p ∈ found ↔ ∃ q, p = root ++ q ∧ entries.HasFile q ∧ q.getLast? = some fileName
        ∧ (recursive = true ∨ q.length = 1) := by
  refine ⟨_, rfl, Entries.nodup_search h, ?_, fun p => Entries.mem_search_iff⟩
  cases recursive with
  | false => exact Entries.search_sublist
  | true => exact List.Sublist.refl _

/-- A file of one name in two folders. -/
def twoLogs : Entries :=
  .folder (lit "old") (.file (lit "a.log") .nil) (.file (lit "b.log") (.file (lit "a.log") .nil))

theorem searchFile_spec_twoLogs : ∃ found,
    searchFile [lit "tmp"] (lit "a.log") true (.folder twoLogs) = some found
      ∧ found.Nodup ∧ found.Sublist (twoLogs.search (lit "a.log") true [lit "tmp"])
      ∧ ∀ p, p ∈ found ↔ ∃ q, p = [lit "tmp"] ++ q ∧ twoLogs.HasFile q
        ∧ q.getLast? = some (lit "a.log") ∧ (true = true ∨ q.length = 1) :=
  searchFile_spec
    (show twoLogs.Distinct from
      ⟨by decide, ⟨List.not_mem_nil, trivial⟩, by decide, List.not_mem_nil, trivial⟩)
    _ _ true

end Filesystem
end S4LibLite
