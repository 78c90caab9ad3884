import BeastOs.Fs.Tar

/-!
# Listing a directory of an archive

`read_dir` of `fs/tar.rs`. An archive has no directories: the loop goes through the names of all
entries, takes those that start with the path, and lists the first component of what is left, with a
slash after it if there is more.

It does not look at the character after the path. So an entry `binary/x` is listed under `bin`, as
`ary/`. `readDir_exact_iff`: the listing is that of the entries below the directory exactly if an
entry that merely starts with the path would only be listed as something that is there anyway.
-/

namespace BeastOs.Fs

open List Lib

namespace TarArchive

/-! ## The code -/

/-- `split('/').next()` -/
def firstPart (s : String) : String := String.ofList (s.toList.takeWhile (· ≠ '/'))

/-- A name that is there already is not added. -/
def pushNew (entries : List String) (name : String) : List String :=
  if name ∈ entries then entries else entries ++ [name]

/-- What the loop adds for an entry. -/
def listEntry (path fileName : String) (entries : List String) : List String :=
  if path = "" then
    if '/' ∈ fileName.toList then pushNew entries (firstPart fileName ++ "/")
    else pushNew entries fileName
  else
    let normalized := trimStartMatches (· == '/') fileName
    if path.toList <+: normalized.toList ∧ normalized ≠ path then
      let relative := trimStartMatches (· == '/')
        (String.ofList (normalized.toList.drop path.toList.length))
      if relative = "" then entries
      else if '/' ∈ relative.toList then pushNew entries (firstPart relative ++ "/")
      else pushNew entries (firstPart relative)
    else entries

def readDirFrom (raw : List U8) (path : String) (entries : List String) (offset : Nat) :
    List String :=
  if offset + 512 ≤ raw.length then
    let header := (raw.drop offset).take 512
    if header.head? = some 0 then entries
    else
      readDirFrom raw path (listEntry path (fileName header) entries)
        (nextOffset (offset + 512) (fileSize header))
  else entries
termination_by raw.length - offset
decreasing_by
  have hnext : offset + 512 ≤ nextOffset (offset + 512) (fileSize ((raw.drop offset).take 512)) :=
    Nat.le_add_right _ _
  omega

def readDir (archive : TarArchive) (path : String) : Except FsError (List String) :=
  .ok (readDirFrom archive.rawData (trimMatches (· == '/') path) [] 0)

/-! ## What is listed -/

/-- The first component, with a slash after it if there is more. -/
def component (s : String) : String := if '/' ∈ s.toList then firstPart s ++ "/" else s

/-- The name is that of something in the directory `d`, and `rel` is its path from there. Several
slashes are as good as one. -/
def Below (d name rel : String) : Prop :=
  rel ≠ "" ∧ rel.toList.head? ≠ some '/' ∧
    (d = "" ∧ name = rel ∨ d ≠ "" ∧ ∃ slashes, name = d ++ withSlashes (slashes + 1) rel)

/-- The name merely starts with the characters of `d`. -/
def MerelyStarts (d name rest : String) : Prop :=
  d ≠ "" ∧ rest ≠ "" ∧ rest.toList.head? ≠ some '/' ∧ name = d ++ rest

/-- There is something in the directory with this as its first component. -/
def IsListed (d : String) (names : List String) (item : String) : Prop :=
  ∃ name ∈ names, ∃ rel, Below d name rel ∧ item = component rel

/-- A listing without duplicates of the first components in the directory. -/
structure ExactListing (d : String) (names entries : List String) : Prop where
  nodup : entries.Nodup
  mem_iff : ∀ item, item ∈ entries ↔ IsListed d names item

/-! ## Names -/

/-- What the code takes for the path from the directory. -/
def relativeTo (d name : String) : Option String :=
  if d = "" then some name
  else if d.toList <+: name.toList ∧ name ≠ d then
    let rel := trimStartMatches (· == '/') (String.ofList (name.toList.drop d.toList.length))
    if rel = "" then none else some rel
  else none

theorem firstPart_of_not_mem {s : String} (hs : '/' ∉ s.toList) : firstPart s = s := by
  have hall : s.toList.takeWhile (· ≠ '/') = s.toList := by
    rw [takeWhile_eq_self_iff]
    intro c hc
    rw [decide_eq_true_iff]
    rintro rfl
    exact hs hc
  rw [firstPart, hall, String.ofList_toList]

theorem trimStartMatches_of_head {s : String} (hs : s.toList.head? ≠ some '/') :
    trimStartMatches (· == '/') s = s := by
  have htrim := trimStartMatches_withSlashes hs 0
  rwa [withSlashes, replicate_zero, nil_append, String.ofList_toList] at htrim

/-- Any text is one without a slash at its start, and slashes before it. -/
theorem eq_withSlashes (s : String) : ∃ slashes,
    s = withSlashes slashes (trimStartMatches (· == '/') s) ∧
      (trimStartMatches (· == '/') s).toList.head? ≠ some '/' := by
  have hslashes : s.toList.takeWhile (· == '/') =
      replicate (s.toList.takeWhile (· == '/')).length '/' := by
    refine eq_replicate_iff.mpr ⟨rfl, fun c hc => ?_⟩
    have hslash : (c == '/') = true := mem_takeWhile_imp (p := (· == '/')) hc
    exact beq_iff_eq.mp hslash
  refine ⟨(s.toList.takeWhile (· == '/')).length, ?_, ?_⟩
  · apply String.toList_injective
    simp only [withSlashes, String.toList_ofList, trimStartMatches, ← hslashes,
      takeWhile_append_dropWhile]
  · rw [trimStartMatches, String.toList_ofList]
    intro hhead
    have hnot := head?_dropWhile_not (· == '/') s.toList
    rw [hhead] at hnot
    exact absurd hnot (by decide)

/-- A path from the directory comes after the characters of the directory and some slashes,
possibly none. -/
theorem relativeTo_eq_some_iff {d name rel : String} (hd : d ≠ "") : relativeTo d name = some rel ↔
      rel ≠ "" ∧ rel.toList.head? ≠ some '/' ∧ ∃ slashes, name = d ++ withSlashes slashes rel := by
  rw [relativeTo, if_neg hd]
  constructor
  · intro h
    split at h
    next hstarts =>
      obtain ⟨⟨rest, hrest⟩, -⟩ := hstarts
      dsimp only at h
      rw [← hrest, drop_left] at h
      split at h
      · cases h
      next hne =>
        obtain rfl := Option.some.inj h
        obtain ⟨slashes, heq, hhead⟩ := eq_withSlashes (String.ofList rest)
        refine ⟨hne, hhead, slashes, ?_⟩
        rw [← heq]
        apply String.toList_injective
        rw [String.toList_append, String.toList_ofList, hrest]
    · cases h
  · rintro ⟨hne, hhead, slashes, rfl⟩
    have hstarts : d.toList <+: (d ++ withSlashes slashes rel).toList ∧
        d ++ withSlashes slashes rel ≠ d := by
      rw [String.toList_append]
      refine ⟨prefix_append _ _, fun heq => hne ?_⟩
      have hnil : (withSlashes slashes rel).toList = [] := by
        have hsame := congrArg String.toList heq
        rw [String.toList_append] at hsame
        exact append_right_eq_self.mp hsame
      rw [withSlashes, String.toList_ofList, append_eq_nil_iff] at hnil
      exact String.toList_injective hnil.2
    rw [if_pos hstarts]
    rw [String.toList_append, drop_left, String.ofList_toList,
      trimStartMatches_withSlashes hhead, if_neg hne]

/-- The code takes an entry to be in the directory if it is, or if its name merely starts so. -/
theorem relativeTo_iff {d rel : String} (e : Entry) :
    relativeTo d e.name = some rel ↔ Below d e.name rel ∨ MerelyStarts d e.name rel := by
  by_cases hd : d = ""
  · subst hd
    rw [relativeTo, if_pos rfl, Option.some_inj, Below, MerelyStarts]
    constructor
    · rintro rfl
      exact .inl ⟨e.name_ne, e.relative, Or.inl ⟨rfl, rfl⟩⟩
    · rintro (⟨-, -, ⟨-, h⟩ | ⟨h, -⟩⟩ | ⟨h, -⟩)
      · exact h
      · exact absurd rfl h
      · exact absurd rfl h
  · rw [relativeTo_eq_some_iff hd, Below, MerelyStarts]
    have hzero : withSlashes 0 rel = rel := by
      rw [withSlashes, replicate_zero, nil_append, String.ofList_toList]
    constructor
    · rintro ⟨hne, hhead, slashes, hname⟩
      cases slashes with
      | zero => exact .inr ⟨hd, hne, hhead, by rw [hname, hzero]⟩
      | succ slashes => exact .inl ⟨hne, hhead, Or.inr ⟨hd, slashes, hname⟩⟩
    · rintro (⟨hne, hhead, ⟨h, -⟩ | ⟨-, slashes, hname⟩⟩ | ⟨-, hne, hhead, hname⟩)
      · exact absurd h hd
      · exact ⟨hne, hhead, slashes + 1, hname⟩
      · exact ⟨hne, hhead, 0, by rw [hname, hzero]⟩

/-- What is added for an entry is the first component of its path. -/
theorem listEntry_eq (d : String) (e : Entry) (entries : List String) : listEntry d e.name entries =
      (relativeTo d e.name).elim entries fun rel => pushNew entries (component rel) := by
  unfold listEntry relativeTo
  rw [trimStartMatches_of_head e.relative]
  dsimp only
  split
  · rw [Option.elim_some, component]
    split <;> rfl
  · split
    · split
      · rfl
      · rw [Option.elim_some, component]
        split
        · rfl
        next hnot => rw [firstPart_of_not_mem hnot]
    · rfl

/-! ## Listing -/

variable {entries : List String} {records : List Record} {trailer : List U8}

theorem mem_pushNew {name item : String} :
    item ∈ pushNew entries name ↔ item ∈ entries ∨ item = name := by
  unfold pushNew
  split
  next hmem =>
    constructor
    · exact .inl
    · rintro (h | rfl)
      · exact h
      · exact hmem
  · rw [mem_append, mem_singleton]

theorem nodup_pushNew {name : String} (h : entries.Nodup) : (pushNew entries name).Nodup := by
  unfold pushNew
  split
  · exact h
  next hnot => exact nodup_append.mpr ⟨h, nodup_singleton _, fun a ha b hb hab =>
      hnot (mem_singleton.mp hb ▸ hab ▸ ha)⟩

/-- The loop over the names of an archive. -/
def listNames (d : String) (records : List Record) (entries : List String) : List String :=
  records.foldl (fun entries r => listEntry d r.entry.name entries) entries

theorem nodup_listNames {d : String} (h : entries.Nodup) :
    (listNames d records entries).Nodup := by
  induction records generalizing entries with
  | nil => exact h
  | cons r records ih =>
    apply ih
    dsimp only
    rw [listEntry_eq]
    cases relativeTo d r.entry.name with
    | none => exact h
    | some rel => exact nodup_pushNew h

theorem mem_listNames {d : String} {item : String} :
    item ∈ listNames d records entries ↔
      item ∈ entries ∨ ∃ r ∈ records, ∃ rel, relativeTo d r.entry.name = some rel ∧
        item = component rel := by
  induction records generalizing entries with
  | nil => simp [listNames]
  | cons r records ih =>
    have hstep : item ∈ listEntry d r.entry.name entries ↔
        item ∈ entries ∨ ∃ rel, relativeTo d r.entry.name = some rel ∧ item = component rel := by
      rw [listEntry_eq]
      cases relativeTo d r.entry.name with
      | none => simp
      | some rel => simp [mem_pushNew]
    rw [listNames, foldl_cons, ← listNames, ih, hstep, or_assoc, exists_mem_cons_iff]

/-- **The loop** goes through all records. -/
theorem readDirFrom_records (hend : EndOfArchive trailer) (d : String)
    (records : List Record) (pre : List U8) (entries : List String) :
    readDirFrom (pre ++ (records.flatMap Record.bytes ++ trailer)) d entries pre.length =
      listNames d records entries := by
  induction records generalizing pre entries with
  | nil =>
    rw [flatMap_nil, nil_append, readDirFrom]
    split
    next hlen => exact if_pos (hend.head?_header hlen)
    · rfl
  | cons r records ih =>
    have hlen := r.length_le pre (records.flatMap Record.bytes ++ trailer)
    rw [flatMap_cons, append_assoc, readDirFrom, if_pos (by omega)]
    rw [r.header_at, if_neg r.head?_header_ne, r.fileName_header, r.fileSize_header,
      r.nextOffset_at, ← append_assoc, ih]
    rfl

theorem readDir_ofRecords (records : List Record) (hend : EndOfArchive trailer)
    (path : String) : (ofRecords records trailer).readDir path =
      .ok (listNames (trimMatches (· == '/') path) records []) :=
  congrArg Except.ok (readDirFrom_records hend _ records [] [])

/-- The names of the entries. -/
def names (records : List Record) : List String := records.map (·.entry.name)

/-- **A listing is exact** if and only if each entry whose name merely starts with the characters of
the directory would be listed as something that is in the directory. -/
theorem readDir_exact_iff (records : List Record) {trailer : List U8} (hend : EndOfArchive trailer)
    (path : String) :
    (∃ entries, (ofRecords records trailer).readDir path = .ok entries ∧
        ExactListing (trimMatches (· == '/') path) (names records) entries) ↔
      ∀ name ∈ names records, ∀ rest, MerelyStarts (trimMatches (· == '/') path) name rest →
        IsListed (trimMatches (· == '/') path) (names records) (component rest) := by
  generalize hd : trimMatches (· == '/') path = d
  have hread : (ofRecords records trailer).readDir path = .ok (listNames d records []) :=
    hd ▸ readDir_ofRecords records hend path
  have hmem : ∀ item, item ∈ listNames d records [] ↔ IsListed d (names records) item ∨
      ∃ name ∈ names records, ∃ rest, MerelyStarts d name rest ∧ item = component rest := by
    intro item
    rw [mem_listNames, or_iff_right (not_mem_nil)]
    simp only [relativeTo_iff, IsListed, names, mem_map, exists_exists_and_eq_and,
      or_and_right, exists_or, and_or_left]
  constructor
  · rintro ⟨entries, hentries, hexact⟩ name hname rest hstarts
    rw [hread] at hentries
    obtain rfl := Except.ok.inj hentries
    rw [← hexact.mem_iff, hmem]
    exact .inr ⟨name, hname, rest, hstarts, rfl⟩
  · intro h
    refine ⟨_, hread, nodup_listNames nodup_nil, fun item => ?_⟩
    rw [hmem, or_iff_left_of_imp]
    rintro ⟨name, hname, rest, hstarts, rfl⟩
    exact h name hname rest hstarts

theorem endOfArchive_zeros : EndOfArchive (List.replicate 1024 0) :=
  Or.inr ⟨_, replicate_add 512 512 0⟩

/-- With `bin/sh` and `etc/motd` in the archive, there is `sh` in `/bin/`. -/
theorem readDir_exact_bin : ∃ entries, (ofEntries [shell, motd]).readDir "/bin/" = .ok entries ∧
    ExactListing (trimMatches (· == '/') "/bin/") ["bin/sh", "etc/motd"] entries ∧
    "sh" ∈ entries := by
  have hbin : trimMatches (· == '/') "/bin/" = "bin" := by decide +kernel
  have hnames : names ([shell, motd].map Entry.record) = ["bin/sh", "etc/motd"] := rfl
  obtain ⟨entries, hread, hexact⟩ :=
    (readDir_exact_iff ([shell, motd].map Entry.record) endOfArchive_zeros "/bin/").mpr (by
      rw [hbin, hnames]
      rintro name hname rest ⟨-, -, hhead, rfl⟩
      rw [mem_cons, mem_singleton] at hname
      have hafter : ∀ s : String, "bin" ++ rest = s → rest.toList = s.toList.drop 3 := by
        rintro s rfl
        rw [String.toList_append]
        rfl
      rcases hname with hname | hname
      · rw [hafter _ hname] at hhead
        exact absurd (by decide) hhead
      · have hfirst := congrArg (·.toList.head?) hname
        rw [String.toList_append, head?_append_of_ne_nil _ (by decide)] at hfirst
        exact absurd hfirst (by decide))
  refine ⟨entries, hread, hexact, (hexact.mem_iff "sh").mpr ?_⟩
  exact ⟨"bin/sh", mem_cons_self, "sh", ⟨by decide, by decide, Or.inr ⟨by decide, 0,
    by decide +kernel⟩⟩, by decide +kernel⟩

def binaryX : Entry := ⟨"binary/x", [], by decide, by decide, by decide, by decide, by decide⟩

/-- The file `binary/x` makes for an entry `ary/` in `bin`. -/
theorem not_readDir_exact_binary :
    (ofEntries [binaryX]).readDir "bin" = .ok ["ary/"] ∧
    ¬ ∃ entries, (ofEntries [binaryX]).readDir "bin" = .ok entries ∧
      ExactListing "bin" ["binary/x"] entries := by
  have hread : (ofEntries [binaryX]).readDir "bin" = .ok ["ary/"] :=
    (readDir_ofRecords ([binaryX].map Entry.record) endOfArchive_zeros "bin").trans (by
      decide +kernel)
  refine ⟨hread, ?_⟩
  rintro ⟨entries, hentries, hexact⟩
  rw [hread] at hentries
  obtain rfl := Except.ok.inj hentries
  obtain ⟨name, hname, rel, ⟨-, -, ⟨h, -⟩ | ⟨-, slashes, hslashes⟩⟩, -⟩ :=
    (hexact.mem_iff "ary/").mp (mem_singleton_self _)
  · exact absurd h (by decide)
  · -- the character after `bin` is not a slash
    rw [mem_singleton.mp hname] at hslashes
    have hafter := congrArg (fun s => (s.toList.drop "bin".toList.length).head?) hslashes
    have hslash : (withSlashes (slashes + 1) rel).toList.head? = some '/' := by
      simp [withSlashes, replicate_succ]
    rw [String.toList_append, drop_left, hslash] at hafter
    exact absurd hafter (by decide)

end TarArchive

end BeastOs.Fs
