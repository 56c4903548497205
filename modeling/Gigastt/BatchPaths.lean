import Gigastt.Table
import Mathlib.Data.List.Sort

/-!
The files of a batch. Names are bytes, a path is the list of its components, and the walk goes
through directories entry by entry.
-/

namespace Gigastt.Batch

abbrev Name := List UInt8

abbrev Path := List Name

instance : LawfulBEq Path := inferInstanceAs (LawfulBEq (List (List UInt8)))

def ascii (text : String) : Name := text.toUTF8.data.toList

def dot : UInt8 := 46

def Path.fileName (path : Path) : Option Name := path.getLast?

/-- A name before and after its last dot. A leading dot starts no extension. -/
def splitAtDot (name : Name) : Name × Option Name :=
  let before := (name.reverse.dropWhile (· ≠ dot)).tail.reverse
  let after := (name.reverse.takeWhile (· ≠ dot)).reverse
  if before = [] then (name, none) else (before, some after)

def Path.fileStem (path : Path) : Option Name := path.fileName.map fun name => (splitAtDot name).1

def Path.extension (path : Path) : Option Name := path.fileName.bind fun name => (splitAtDot name).2

def toAsciiLowercase (b : UInt8) : UInt8 := if 65 ≤ b ∧ b ≤ 90 then b + 32 else b

def supportedExtensions : List Name :=
  [ascii "wav", ascii "mp3", ascii "m4a", ascii "ogg", ascii "flac", ascii "webm"]

/-- Case-insensitive. An extension that is not UTF-8 is none of the list. -/
def isAudioFile (path : Path) : Bool :=
  path.extension.any fun ext => ext.map toAsciiLowercase ∈ supportedExtensions

inductive ExportFormat
  | json
  | txt
  | srt
  | vtt
  | md
  deriving DecidableEq

def ExportFormat.extension : ExportFormat → Name
  | .json => ascii "json"
  | .txt => ascii "txt"
  | .srt => ascii "srt"
  | .vtt => ascii "vtt"
  | .md => ascii "md"

def toStr (name : Name) : Option Name :=
  if (ByteArray.mk name.toArray).validateUTF8 then some name else none

def outputPathFor (input outputDir : Path) (extension : Name) : Path :=
  let stem := (input.fileStem.bind toStr).getD (ascii "transcript")
  outputDir ++ [stem ++ dot :: extension]

/-- The entries of a directory, in the order they are read. -/
inductive Entries (V : Type*)
  | nil
  | file (name : Name) (value : V) (rest : Entries V)
  | dir (name : Name) (entries rest : Entries V)

variable {V : Type*}

namespace Entries

def names : Entries V → List Name
  | .nil => []
  | .file name _ rest => name :: rest.names
  | .dir name _ rest => name :: rest.names

/-- No two entries of a directory have the same name. -/
def Distinct : Entries V → Prop
  | .nil => True
  | .file name _ rest => name ∉ rest.names ∧ rest.Distinct
  | .dir name entries rest => name ∉ rest.names ∧ entries.Distinct ∧ rest.Distinct

def decidableDistinct : ∀ e : Entries V, Decidable e.Distinct
  | .nil => isTrue trivial
  | .file name _ rest =>
      have := rest.decidableDistinct
      inferInstanceAs (Decidable (name ∉ rest.names ∧ rest.Distinct))
  | .dir name entries rest =>
      have := entries.decidableDistinct
      have := rest.decidableDistinct
      inferInstanceAs (Decidable (name ∉ rest.names ∧ entries.Distinct ∧ rest.Distinct))

instance (e : Entries V) : Decidable e.Distinct := e.decidableDistinct

def fileAt (name : Name) : Entries V → Option V
  | .nil => none
  | .file other value rest => if other = name then some value else rest.fileAt name
  | .dir _ _ rest => rest.fileAt name

def dirAt (name : Name) : Entries V → Option (Entries V)
  | .nil => none
  | .file _ _ rest => rest.dirAt name
  | .dir other entries rest => if other = name then some entries else rest.dirAt name

/-- The directory at a path. -/
def enter (e : Entries V) : Path → Option (Entries V)
  | [] => some e
  | name :: path => (e.dirAt name).bind fun sub => sub.enter path

/-- The file at a path. -/
def find (e : Entries V) : Path → Option V
  | [] => none
  | [name] => e.fileAt name
  | name :: next :: path => (e.dirAt name).bind fun sub => sub.find (next :: path)

/-- The walk into a directory, which goes into its directories in turn. -/
def collectInto (path : Path) : Entries V → List (Path × V)
  | .nil => []
  | .file name value rest =>
      if isAudioFile (path ++ [name]) then (path ++ [name], value) :: rest.collectInto path
      else rest.collectInto path
  | .dir name entries rest => entries.collectInto (path ++ [name]) ++ rest.collectInto path

end Entries

/-- Supported audio files under `root`, sorted. -/
def collectAudioFiles (root : Path) (entries : Entries V) : List (Path × V) :=
  (entries.collectInto root).insertionSort fun x y => x.1 ≤ y.1

/-- The directories and files of a file system. -/
structure Tree (V : Type*) where
  root : Entries V
  distinct : root.Distinct

section Walk

variable {e rest : Entries V} {name : Name} {path : Path} {value : V}

theorem Entries.mem_names_of_fileAt (h : e.fileAt name = some value) : name ∈ e.names := by
  induction e with
  | nil => cases h
  | file other v rest ih =>
      rw [fileAt] at h
      split at h
      · rename_i hname
        exact hname ▸ List.mem_cons_self
      · exact List.mem_cons_of_mem other (ih h)
  | dir other entries rest _ ih => exact List.mem_cons_of_mem other (ih h)

theorem Entries.mem_names_of_dirAt (h : e.dirAt name = some rest) : name ∈ e.names := by
  induction e with
  | nil => cases h
  | file other v rest ih => exact List.mem_cons_of_mem other (ih h)
  | dir other entries rest _ ih =>
      rw [dirAt] at h
      split at h
      · rename_i hname
        exact hname ▸ List.mem_cons_self
      · exact List.mem_cons_of_mem other (ih h)

theorem Entries.find_file_rest {other : Name} {v : V} (hother : other ∉ rest.names)
    (h : rest.find path = some value) : (file other v rest).find path = some value := by
  rcases path with _ | ⟨name, _ | ⟨next, path⟩⟩
  · cases h
  · have hne : other ≠ name := fun heq => hother (heq ▸ mem_names_of_fileAt h)
    exact (if_neg hne).trans h
  · exact h

theorem Entries.find_dir_rest {other : Name} {entries : Entries V} (hother : other ∉ rest.names)
    (h : rest.find path = some value) : (dir other entries rest).find path = some value := by
  rcases path with _ | ⟨name, _ | ⟨next, path⟩⟩
  · cases h
  · exact h
  · obtain ⟨sub, hsub, hfind⟩ := Option.bind_eq_some_iff.mp h
    have hne : other ≠ name := fun heq => hother (heq ▸ mem_names_of_dirAt hsub)
    have hdir : (dir other entries rest).dirAt name = some sub := (if_neg hne).trans hsub
    exact Option.bind_eq_some_iff.mpr ⟨sub, hdir, hfind⟩

theorem Entries.find_dir_entries {entries : Entries V} (h : entries.find path = some value) :
    (dir name entries rest).find (name :: path) = some value := by
  cases path with
  | nil => cases h
  | cons next path =>
      have hdir : (dir name entries rest).dirAt name = some entries := if_pos rfl
      exact Option.bind_eq_some_iff.mpr ⟨entries, hdir, h⟩

theorem Entries.find_enter {sub : Entries V} {root : Path} (hsub : e.enter root = some sub)
    (h : sub.find path = some value) : e.find (root ++ path) = some value := by
  induction root generalizing e with
  | nil =>
      cases hsub
      exact h
  | cons name root ih =>
      obtain ⟨inner, hinner, henter⟩ := Option.bind_eq_some_iff.mp hsub
      have hfind := ih henter
      cases hpath : root ++ path with
      | nil =>
          rw [hpath] at hfind
          cases hfind
      | cons next tail =>
          rw [List.cons_append, hpath]
          exact Option.bind_eq_some_iff.mpr ⟨inner, hinner, hpath ▸ hfind⟩

theorem Entries.enter_distinct {sub : Entries V} {root : Path} (hdistinct : e.Distinct)
    (hsub : e.enter root = some sub) : sub.Distinct := by
  have hdir : ∀ {e sub : Entries V} {name : Name}, e.Distinct → e.dirAt name = some sub →
      sub.Distinct := by
    intro e sub name hdistinct h
    induction e with
    | nil => cases h
    | file _ _ rest ih => exact ih hdistinct.2 h
    | dir other entries rest _ ih =>
        rw [dirAt] at h
        split at h
        · cases h
          exact hdistinct.2.1
        · exact ih hdistinct.2.2 h
  induction root generalizing e with
  | nil =>
      cases hsub
      exact hdistinct
  | cons name root ih =>
      obtain ⟨inner, hinner, henter⟩ := Option.bind_eq_some_iff.mp hsub
      exact ih (hdir hdistinct hinner) henter

/-- What the walk collects is an audio file below the directory it walks. -/
theorem Entries.mem_collectInto {root : Path} (hdistinct : e.Distinct)
    (h : (path, value) ∈ e.collectInto root) :
    isAudioFile path = true ∧
      ∃ below, path = root ++ below ∧ e.find below = some value ∧
        ∀ name ∈ below.head?, name ∈ e.names := by
  induction e generalizing root with
  | nil => cases h
  | file name v rest ih =>
      have hrest : (path, value) ∈ rest.collectInto root → isAudioFile path = true ∧
          ∃ below, path = root ++ below ∧ (file name v rest).find below = some value ∧
            ∀ n ∈ below.head?, n ∈ (file name v rest).names := by
        intro hmem
        obtain ⟨haudio, below, hpath, hfind, hhead⟩ := ih hdistinct.2 hmem
        exact ⟨haudio, below, hpath, find_file_rest hdistinct.1 hfind,
          fun n hn => List.mem_cons_of_mem name (hhead n hn)⟩
      rw [collectInto] at h
      split at h
      · rename_i haudio
        rcases List.mem_cons.mp h with heq | hmem
        · cases heq
          refine ⟨haudio, [name], rfl, if_pos rfl, ?_⟩
          simp [names]
        · exact hrest hmem
      · exact hrest h
  | dir name entries rest ihentries ih =>
      rw [collectInto] at h
      rcases List.mem_append.mp h with hmem | hmem
      · obtain ⟨haudio, below, hpath, hfind, -⟩ := ihentries hdistinct.2.1 hmem
        refine ⟨haudio, name :: below, by simp [hpath], find_dir_entries hfind, ?_⟩
        simp [names]
      · obtain ⟨haudio, below, hpath, hfind, hhead⟩ := ih hdistinct.2.2 hmem
        exact ⟨haudio, below, hpath, find_dir_rest hdistinct.1 hfind,
          fun n hn => List.mem_cons_of_mem name (hhead n hn)⟩

theorem Entries.collectInto_head {root : Path} (hdistinct : e.Distinct)
    (h : path ∈ (e.collectInto root).map Prod.fst) :
    ∃ name ∈ e.names, root ++ [name] <+: path := by
  obtain ⟨x, hx, rfl⟩ := List.mem_map.mp h
  obtain ⟨-, below, hpath, hfind, hhead⟩ := mem_collectInto hdistinct hx
  cases below with
  | nil => cases hfind
  | cons name below => exact ⟨name, hhead name rfl, below, by simp [hpath]⟩

theorem Entries.nodup_collectInto {root : Path} (hdistinct : e.Distinct) :
    ((e.collectInto root).map Prod.fst).Nodup := by
  induction e generalizing root with
  | nil => exact List.nodup_nil
  | file name v rest ih =>
      rw [collectInto]
      split
      · refine List.nodup_cons.mpr ⟨?_, ih hdistinct.2⟩
        intro hmem
        obtain ⟨other, hother, hstarts⟩ := collectInto_head hdistinct.2 hmem
        have heq := hstarts.eq_of_length (by simp)
        simp only [List.append_cancel_left_eq, List.cons.injEq, and_true] at heq
        exact hdistinct.1 (heq ▸ hother)
      · exact ih hdistinct.2
  | dir name entries rest ihentries ih =>
      rw [collectInto, List.map_append]
      refine List.nodup_append.mpr ⟨ihentries hdistinct.2.1, ih hdistinct.2.2, ?_⟩
      rintro a ha b hb rfl
      obtain ⟨x, hx, rfl⟩ := List.mem_map.mp ha
      obtain ⟨-, below, hpath, -⟩ := mem_collectInto hdistinct.2.1 hx
      obtain ⟨other, hother, hstarts⟩ := collectInto_head hdistinct.2.2 hb
      have hsame : root ++ [other] = root ++ [name] := by
        refine (List.prefix_of_prefix_length_le hstarts ?_ (by simp)).eq_of_length (by simp)
        exact ⟨below, hpath.symm⟩
      simp only [List.append_cancel_left_eq, List.cons.injEq, and_true] at hsame
      exact hdistinct.1 (hsame ▸ hother)

end Walk

/-- Excludes anything under the move-to directory. -/
def scanInputs (inputRoot : Path) (moveTo : Option Path) (tree : Tree V) : Table Path V where
  entries :=
    ((tree.root.enter inputRoot).elim [] (collectAudioFiles inputRoot)).filter fun x =>
      !moveTo.any fun excluded => excluded.isPrefixOf x.1
  nodup := by
    have hfiles : (((tree.root.enter inputRoot).elim [] (collectAudioFiles inputRoot)).map
        Prod.fst).Nodup := by
      cases henter : tree.root.enter inputRoot with
      | none => exact List.nodup_nil
      | some e =>
          have hperm := (List.perm_insertionSort (fun x y : Path × V => x.1 ≤ y.1)
            (e.collectInto inputRoot)).map Prod.fst
          refine hperm.nodup_iff.mpr (Entries.nodup_collectInto ?_)
          exact Entries.enter_distinct tree.distinct henter
    exact hfiles.sublist (List.filter_sublist.map Prod.fst)

/-- The inputs of a batch are audio files that are not under the move-to directory. -/
theorem mem_scanInputs {inputRoot : Path} {moveTo : Option Path} {tree : Tree V} {path : Path}
    {value : V} (h : (path, value) ∈ (scanInputs inputRoot moveTo tree).entries) :
    tree.root.find path = some value ∧ isAudioFile path = true ∧
      ∀ excluded ∈ moveTo, ¬excluded <+: path := by
  obtain ⟨hmem, houtside⟩ := List.mem_filter.mp h
  cases henter : tree.root.enter inputRoot with
  | none =>
      rw [henter] at hmem
      cases hmem
  | some e =>
      rw [henter] at hmem
      have hcollected := (List.perm_insertionSort _ _).mem_iff.mp hmem
      obtain ⟨haudio, below, rfl, hfind, -⟩ :=
        Entries.mem_collectInto (Entries.enter_distinct tree.distinct henter) hcollected
      refine ⟨Entries.find_enter henter hfind, haudio, ?_⟩
      rintro excluded hexcluded hstarts
      cases hexcluded
      simp [List.isPrefixOf_iff_prefix.mpr hstarts] at houtside

/-- An output never stands where an audio file does. -/
theorem outputPathFor_not_audio (input outputDir : Path) (format : ExportFormat) :
    isAudioFile (outputPathFor input outputDir format.extension) = false := by
  generalize hstem : (input.fileStem.bind toStr).getD (ascii "transcript") = stem
  have hname : (outputPathFor input outputDir format.extension).fileName
      = some (stem ++ dot :: format.extension) := by
    rw [outputPathFor, hstem, Path.fileName, List.getLast?_concat]
  have hdot : dot ∉ format.extension := by
    cases format <;> decide
  have hreverse : (stem ++ dot :: format.extension).reverse
      = format.extension.reverse ++ dot :: stem.reverse := by
    simp
  have hpos : ∀ b ∈ format.extension.reverse, decide (b ≠ dot) = true := by
    intro b hb
    exact decide_eq_true fun heq => hdot (heq ▸ List.mem_reverse.mp hb)
  have hafter : ((stem ++ dot :: format.extension).reverse.takeWhile (· ≠ dot)).reverse
      = format.extension := by
    rw [hreverse, List.takeWhile_append_of_pos hpos]
    simp
  have hbefore : ((stem ++ dot :: format.extension).reverse.dropWhile (· ≠ dot)).tail.reverse
      = stem := by
    rw [hreverse, List.dropWhile_append_of_pos hpos]
    simp
  have hother : format.extension.map toAsciiLowercase ∉ supportedExtensions := by
    cases format <;> decide
  rw [isAudioFile, Path.extension, hname, Option.bind_some, splitAtDot, hafter, hbefore]
  split
  · rfl
  · exact decide_eq_false hother

end Gigastt.Batch
