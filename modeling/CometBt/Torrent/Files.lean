import CometBt.Bencode.Grammar
import CometBt.Lib.Runs
import Mathlib.Data.List.Forall2

/-!
# The files of a torrent (`src/torrent.cpp`)

`extract_info_files` makes an entry for each element of the list `files`. Its length is an `int`,
and its path is the first component of the list `path`.

* `index`: `operator[]` of an `unordered_map` of nodes, which adds a null node for a missing key.
  `node` is what it refers to.
* `extractInfoFiles_eq`: the entries.
* **`files_kept_iff`**: when they keep what the list says.
-/

namespace CometBt.Torrent

open Bencode (Bptr dictSet toInt intMax llongMax)
open Lib (bind_eq_ok)

/-! ## Nodes -/

/-- `dict_t`. -/
abbrev Dict := List (List UInt8 × Bptr)

/-- How a use of nodes ends when it does not go through. -/
inductive NodeHalt where
  /-- A null node is dereferenced. -/
  | nullDeref
  /-- `std::bad_variant_access`. -/
  | badVariant
  /-- An empty list is read at 0. -/
  | outOfRange
  deriving DecidableEq, Repr

/-- What `d[key]` refers to. -/
def node (d : Dict) (key : List UInt8) : Bptr := (d.lookup key).getD .null

/-- `d[key]`, and the map that it leaves. -/
def index (d : Dict) (key : List UInt8) : Bptr × Dict :=
  match d.lookup key with
  | some v => (v, d)
  | none => (.null, dictSet key .null d)

/-- `std::get<std::vector<char>>(p->m_val)`. -/
def getStr : Bptr → Except NodeHalt (List UInt8)
  | .null => .error .nullDeref
  | .str s => .ok s
  | _ => .error .badVariant

/-- `std::get<long long>(p->m_val)`. -/
def getInt : Bptr → Except NodeHalt Int
  | .null => .error .nullDeref
  | .int n => .ok n
  | _ => .error .badVariant

/-- `std::get<list_t>(p->m_val)`. -/
def getList : Bptr → Except NodeHalt (List Bptr)
  | .null => .error .nullDeref
  | .list elems => .ok elems
  | _ => .error .badVariant

/-- `std::get<dict_t>(p->m_val)`. -/
def getDict : Bptr → Except NodeHalt Dict
  | .null => .error .nullDeref
  | .dict d => .ok d
  | _ => .error .badVariant

/-- `std::get<std::vector<char>>(list[0]->m_val)`. -/
def getFirstStr : List Bptr → Except NodeHalt (List UInt8)
  | [] => .error .outOfRange
  | elem :: _ => getStr elem

variable {d : Dict} {key : List UInt8}

@[simp] theorem index_fst (d : Dict) (key : List UInt8) : (index d key).1 = node d key := by
  unfold index node
  cases d.lookup key <;> rfl

/-- The null nodes that `operator[]` adds read like the missing keys. -/
@[simp] theorem node_index (d : Dict) (key k : List UInt8) :
    node (index d key).2 k = node d k := by
  unfold index
  cases h : d.lookup key with
  | some v => rfl
  | none =>
    unfold node
    rw [Bencode.dictSet_lookup]
    split_ifs with hk
    · rw [hk, h]
      rfl
    · rfl

theorem getStr_eq_ok {p : Bptr} {s : List UInt8} : getStr p = .ok s ↔ p = .str s := by
  cases p <;> simp [getStr]

theorem getInt_eq_ok {p : Bptr} {n : Int} : getInt p = .ok n ↔ p = .int n := by
  cases p <;> simp [getInt]

theorem getList_eq_ok {p : Bptr} {elems : List Bptr} : getList p = .ok elems ↔ p = .list elems := by
  cases p <;> simp [getList]

theorem getDict_eq_ok {p : Bptr} : getDict p = .ok d ↔ p = .dict d := by
  cases p <;> simp [getDict]

theorem getFirstStr_eq_ok {list : List Bptr} {s : List UInt8} :
    getFirstStr list = .ok s ↔ ∃ others, list = .str s :: others := by
  cases list <;> simp [getFirstStr, getStr_eq_ok]

theorem node_eq_of_lookup {v : Bptr} (h : d.lookup key = some v) : node d key = v := by
  unfold node
  rw [h]
  rfl

/-! ## The model -/

/-- `files`. -/
def filesKey : List UInt8 := [0x66, 0x69, 0x6C, 0x65, 0x73]
/-- `length`. -/
def lengthKey : List UInt8 := [0x6C, 0x65, 0x6E, 0x67, 0x74, 0x68]
/-- `path`. -/
def pathKey : List UInt8 := [0x70, 0x61, 0x74, 0x68]

/-- `info_file_s`. -/
structure InfoFile where
  /-- An `int`. -/
  length : Int
  path : List UInt8
  deriving DecidableEq, Repr

/-- `info_file_path`. -/
def infoFilePath (d : Dict) : Except NodeHalt (List UInt8) := do
  let list ← getList (index d pathKey).1
  getFirstStr list

theorem infoFilePath_eq_ok {s : List UInt8} : infoFilePath d = .ok s ↔
    ∃ others, node d pathKey = .list (.str s :: others) := by
  unfold infoFilePath
  rw [bind_eq_ok, index_fst]
  constructor
  · rintro ⟨list, hlist, hfirst⟩
    obtain ⟨others, rfl⟩ := getFirstStr_eq_ok.mp hfirst
    exact ⟨others, getList_eq_ok.mp hlist⟩
  · rintro ⟨others, hpath⟩
    exact ⟨_, getList_eq_ok.mpr hpath, getFirstStr_eq_ok.mpr ⟨others, rfl⟩⟩

/-- The loop of `extract_info_files` with the entries so far. -/
def extractLoop : List Bptr → List InfoFile → Except NodeHalt (List InfoFile)
  | [], infoFiles => .ok infoFiles
  | elem :: elems, infoFiles => do
    let file ← getDict elem
    let (length, file) := index file lengthKey
    let length ← getInt length
    let path ← infoFilePath file
    extractLoop elems (infoFiles ++ [⟨toInt length, path⟩])

/-- `extract_info_files`. -/
def extractInfoFiles (info : Dict) : Except NodeHalt (List InfoFile) := do
  let files ← getList (index info filesKey).1
  extractLoop files []

/-! ## Lists of files -/

/-- A file as `files` lists it. -/
structure FileEntry where
  length : Int
  first : List UInt8
  /-- The components behind the first. -/
  others : List (List UInt8)
  nonneg : 0 ≤ length
  le_max : length ≤ llongMax

namespace FileEntry

/-- The path's components. -/
def components (e : FileEntry) : List (List UInt8) := e.first :: e.others

/-- The node is a dictionary of this file. -/
def Describes (e : FileEntry) (elem : Bptr) : Prop :=
  ∃ d : Dict, elem = .dict d ∧ d.lookup lengthKey = some (.int e.length) ∧
    d.lookup pathKey = some (.list (e.components.map .str))

/-- What is made of the file. -/
def toInfoFile (e : FileEntry) : InfoFile := ⟨toInt e.length, e.first⟩

end FileEntry

/-- An info dictionary with a list of files. -/
structure MultiFile where
  info : Dict
  elems : List Bptr
  entries : List FileEntry
  listed : info.lookup filesKey = some (.list elems)
  described : List.Forall₂ FileEntry.Describes entries elems

theorem extractLoop_eq {entries : List FileEntry} {elems : List Bptr}
    (h : List.Forall₂ FileEntry.Describes entries elems) (infoFiles : List InfoFile) :
    extractLoop elems infoFiles = .ok (infoFiles ++ entries.map FileEntry.toInfoFile) := by
  induction h generalizing infoFiles with
  | nil => exact congrArg Except.ok (List.append_nil _).symm
  | @cons e elem entries elems he _ ih =>
    obtain ⟨d, rfl, hlength, hpath⟩ := he
    have hloop : extractLoop (.dict d :: elems) infoFiles = (do
        let length ← getInt (index d lengthKey).1
        let path ← infoFilePath (index d lengthKey).2
        extractLoop elems (infoFiles ++ [⟨toInt length, path⟩])) := rfl
    have hfile : infoFilePath (index d lengthKey).2 = .ok e.first :=
      infoFilePath_eq_ok.mpr ⟨_, (node_index d lengthKey pathKey).trans (node_eq_of_lookup hpath)⟩
    rw [hloop, index_fst, node_eq_of_lookup hlength, hfile]
    change extractLoop elems (infoFiles ++ [e.toInfoFile]) = _
    rw [ih, List.append_assoc]
    rfl

/-- **The entries**: each with its length as an `int`, and its first component. -/
theorem extractInfoFiles_eq (m : MultiFile) :
    extractInfoFiles m.info = .ok (m.entries.map FileEntry.toInfoFile) := by
  unfold extractInfoFiles
  rw [index_fst, node_eq_of_lookup m.listed]
  exact extractLoop_eq m.described []

/-! ## What is kept -/

/-- The entry has the file's length, and its path contains all of the file's components. -/
structure FileEntry.KeptAs (e : FileEntry) (f : InfoFile) : Prop where
  length : f.length = e.length
  path : ∀ c ∈ e.components, c <:+: f.path

/-- **The files are kept**: there is an entry for each in order, the lengths sum up to the total,
and two files with different components have different paths. -/
def Kept (m : MultiFile) : Prop :=
  ∃ infoFiles, extractInfoFiles m.info = .ok infoFiles ∧
    List.Forall₂ FileEntry.KeptAs m.entries infoFiles ∧
    (infoFiles.map InfoFile.length).sum = (m.entries.map FileEntry.length).sum ∧
    ∀ e f e' f', (e, f) ∈ m.entries.zip infoFiles → (e', f') ∈ m.entries.zip infoFiles →
      e.components ≠ e'.components → f.path ≠ f'.path

/-- What an `int` and the first component can keep: every length is an `int`, every component
occurs in the first one, and no two files have only their first component in common. -/
structure Flat (m : MultiFile) : Prop where
  length : ∀ e ∈ m.entries, e.length ≤ intMax
  path : ∀ e ∈ m.entries, ∀ c ∈ e.others, c <:+: e.first
  distinct : ∀ e ∈ m.entries, ∀ e' ∈ m.entries, e.first = e'.first → e.others = e'.others

theorem FileEntry.toInt_length_iff (e : FileEntry) : toInt e.length = e.length ↔
    e.length ≤ intMax := by
  have hnonneg := e.nonneg
  unfold toInt intMax
  constructor
  · intro h
    have := Int.bmod_lt (x := e.length) (m := 2 ^ 32) (by decide)
    omega
  · intro h
    exact Int.bmod_eq_of_le (by omega) (by omega)

theorem FileEntry.keptAs_iff (e : FileEntry) :
    e.KeptAs e.toInfoFile ↔ e.length ≤ intMax ∧ ∀ c ∈ e.others, c <:+: e.first := by
  rw [← e.toInt_length_iff]
  constructor
  · rintro ⟨hlength, hpath⟩
    exact ⟨hlength, fun c hc => hpath c (List.mem_cons_of_mem _ hc)⟩
  · rintro ⟨hlength, hpath⟩
    refine ⟨hlength, fun c hc => ?_⟩
    rcases List.mem_cons.mp hc with rfl | hc
    · exact List.infix_refl _
    · exact hpath c hc

theorem forall₂_keptAs_iff (entries : List FileEntry) :
    List.Forall₂ FileEntry.KeptAs entries (entries.map FileEntry.toInfoFile) ↔
      ∀ e ∈ entries, e.KeptAs e.toInfoFile := by
  rw [List.forall₂_map_right_iff, List.forall₂_same]

theorem mem_zip_toInfoFile {entries : List FileEntry} {e : FileEntry} {f : InfoFile} :
    (e, f) ∈ entries.zip (entries.map FileEntry.toInfoFile) ↔ e ∈ entries ∧ f = e.toInfoFile := by
  induction entries with
  | nil => simp
  | cons a entries ih =>
    rw [List.map_cons, List.zip_cons_cons, List.mem_cons, List.mem_cons, ih, Prod.mk.injEq]
    constructor
    · rintro (⟨rfl, rfl⟩ | ⟨he, rfl⟩)
      · exact ⟨Or.inl rfl, rfl⟩
      · exact ⟨Or.inr he, rfl⟩
    · rintro ⟨rfl | he, rfl⟩
      · exact Or.inl ⟨rfl, rfl⟩
      · exact Or.inr ⟨he, rfl⟩

/-- **The files of a torrent are kept exactly if** every length is at most `INT_MAX`, every further
component occurs in the first one, and two files with the same first component have the same
path. -/
theorem files_kept_iff (m : MultiFile) : Kept m ↔ Flat m := by
  unfold Kept
  rw [extractInfoFiles_eq]
  constructor
  · rintro ⟨infoFiles, hfiles, heach, -, hpaths⟩
    obtain rfl := Except.ok.inj hfiles
    have hall := (forall₂_keptAs_iff m.entries).mp heach
    refine ⟨fun e he => ?_, fun e he => ?_, fun e he e' he' hfirst => ?_⟩
    · exact (e.keptAs_iff.mp (hall e he)).1
    · exact (e.keptAs_iff.mp (hall e he)).2
    · by_contra hne
      refine hpaths e _ e' _ (mem_zip_toInfoFile.mpr ⟨he, rfl⟩) (mem_zip_toInfoFile.mpr ⟨he', rfl⟩)
        (fun heq => hne ?_) hfirst
      exact (List.cons.inj heq).2
  · intro h
    refine ⟨_, rfl, ?_, ?_, ?_⟩
    · exact (forall₂_keptAs_iff m.entries).mpr fun e he =>
        e.keptAs_iff.mpr ⟨h.length e he, h.path e he⟩
    · rw [List.map_map]
      exact congrArg List.sum (List.map_congr_left fun e he =>
        e.toInt_length_iff.mpr (h.length e he))
    · intro e f e' f' he he' hne
      obtain ⟨hmem, rfl⟩ := mem_zip_toInfoFile.mp he
      obtain ⟨hmem', rfl⟩ := mem_zip_toInfoFile.mp he'
      exact fun hfirst => hne (congrArg₂ List.cons hfirst (h.distinct e hmem e' hmem' hfirst))

/-- A file of four gigabytes in a directory `a`, by the name `b`. -/
def largeNested : MultiFile where
  info := [(filesKey, .list [.dict [(lengthKey, .int (2 ^ 32)), (pathKey, .list [.str [0x61],
    .str [0x62]])]])]
  elems := [.dict [(lengthKey, .int (2 ^ 32)), (pathKey, .list [.str [0x61], .str [0x62]])]]
  entries := [⟨2 ^ 32, [0x61], [[0x62]], by decide, by decide⟩]
  listed := rfl
  described := .cons ⟨_, rfl, rfl, rfl⟩ .nil

/-- **The length of `largeNested` is lost, and the name of its file.** -/
theorem largeNested_lost : extractInfoFiles largeNested.info = .ok [⟨0, [0x61]⟩] ∧
    ¬ Kept largeNested := by
  have hfiles : extractInfoFiles largeNested.info = .ok [⟨0, [0x61]⟩] :=
    extractInfoFiles_eq largeNested
  refine ⟨hfiles, ?_⟩
  rintro ⟨infoFiles, hkept, heach, -, -⟩
  obtain rfl := Except.ok.inj (hfiles.symm.trans hkept)
  obtain ⟨hlength, -⟩ := (List.forall₂_cons.mp heach).1
  exact absurd hlength (by decide)

end CometBt.Torrent
