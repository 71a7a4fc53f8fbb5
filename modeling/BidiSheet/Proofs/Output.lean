import BidiSheet.Proofs.Task

/-!
# Outputs of the stylesheets that are found

The suffix that the arguments give is put into the name of every output, and any text but the empty one is
accepted as a suffix. What comes of that depends on whether there is a slash in it.

A path that can be found has an output if its stem is a text. Without a slash in the suffix, the output is a file of its
own beside the stylesheet, has the extension of stylesheets and is known again as an output. No two paths that can be
found have the same output (`Settings.Discoverable.output_sound`). With a slash, the stem and what stands before the
slash become a folder, and since no name has a slash in it, nothing is ever known as an output
(`Path.isOutput_eq_false`). A search may then find what a batch has written (`discover_finds_output`).
-/

namespace BidiSheet

/-- A suffix that is accepted is not empty. -/
theorem Settings.suffix_ne_nil {args : List Text} {settings : Settings} (h : ofArgs args = .ok settings) :
    settings.suffix ≠ [] := by
  unfold ofArgs at h
  cases hdraft : readArgs {} args with
  | error fault =>
    rw [hdraft] at h
    cases h
  | ok draft =>
    rw [hdraft] at h
    change draft.complete = .ok settings at h
    unfold Draft.complete at h
    split at h
    · cases h
    · next hsuffix =>
      split at h
      · cases h
      · cases h
        exact hsuffix

/-- A path that is found on some disk. -/
def Settings.Discoverable (settings : Settings) (p : Path) : Prop :=
  ∃ disk found, Disk.IsTree disk ∧ (discover disk settings).result = .ok found ∧ p ∈ found

namespace Path

/-! ### The folder and the name of a file -/

/-- The folder that the file at a path lies in. -/
def folder? (p : Path) : Option Path := p.split?.map Prod.fst

/-- There is no slash in the name of a file. -/
theorem slash_not_mem_of_fileName? {p : Path} {n : Bytes} (h : p.fileName? = some n) : slash ∉ n := by
  obtain ⟨⟨folder, n⟩, hsplit, rfl⟩ := Option.map_eq_some_iff.mp h
  unfold split? at hsplit
  dsimp only at hsplit
  split at hsplit
  · cases hsplit
  · next m hlast =>
    split at hsplit
    · cases hsplit
    · cases hsplit
      have hmem := (List.rdropWhile_prefix isIdle p.chunks).subset (List.mem_of_getLast? hlast)
      exact slash_not_mem_of_mem_splitOn hmem

/-- A stem is a part of its name. -/
theorem splitName_fst_subset (n : Bytes) : (splitName n).1 ⊆ n := by
  cases hsplit : splitName n with
  | mk stem extension =>
    cases extension with
    | some extension =>
      rw [(of_splitName hsplit).1]
      exact List.subset_append_left _ _
    | none =>
      unfold splitName at hsplit
      split at hsplit <;> cases hsplit <;> exact List.Subset.refl _

/-- **With a slash in the suffix nothing is known as an output.** -/
theorem isOutput_eq_false {suffix : Text} (hslash : '/' ∈ suffix) (p : Path) : p.isOutput suffix = false := by
  unfold isOutput stem?
  cases hname : p.fileName? with
  | none => rfl
  | some n =>
    rw [Option.map_some, Option.bind_some, Bool.eq_false_iff]
    intro hsuffix
    obtain ⟨stem, hstem, hsuffix⟩ := (Option.any_eq_true _ _).mp hsuffix
    have hmem : '/' ∈ stem := (List.isSuffixOf_iff_suffix.mp hsuffix).subset hslash
    refine slash_not_mem_of_fileName? hname (splitName_fst_subset n ?_)
    rw [text?_eq_some_iff.mp hstem]
    exact (mem_bytes_iff (by decide)).mpr hmem

/-! ### The output of a stylesheet in a folder -/

section

variable {q : Path} (hq : q.raw ≠ []) {n : Bytes} (hn : IsEntry n)

include hq hn

/-- The folder of a name in a folder. -/
theorem folder?_join : (q.join n).folder? = some q.trimmed := by
  rw [folder?, split?_join hq hn, Option.map_some]

/-- A name in a folder without idle steps has the components of the folder and its own. -/
theorem components_trimmed_join : (q.trimmed.join n).components = q.components ++ [.name n] := by
  rw [components_join (trimmed_ne_nil hq) hn, components_trimmed hq]

end

end Path

namespace Settings

/-- An output as it should be: a file of its own in the folder of the stylesheet, with the extension of
stylesheets, that is known again as an output. -/
structure SoundOutput (settings : Settings) (p o : Path) : Prop where
  folder : ∃ folder, p.folder? = some folder ∧ o.folder? = some folder
  ne : o.components ≠ p.components
  hasExtension : o.hasExtension settings.extension = true
  isOutput : o.isOutput settings.suffix = true

variable {settings : Settings} {q : Path} {n m : Bytes}

/-- **The output of a stylesheet in a folder is as it should be**, if the suffix has no slash. -/
theorem soundOutput_join (hq : q.raw ≠ []) (hn : Path.IsEntry n) (hwants : settings.wants n = true)
    (hm : Path.outputName? settings.suffix n = some m) (hsuffix : settings.suffix ≠ [])
    (hslash : '/' ∉ settings.suffix) : settings.SoundOutput (q.join n) (q.trimmed.join m) := by
  have hout := Path.isEntry_outputName hwants hm hn hsuffix hslash
  have hq' := Path.trimmed_ne_nil hq
  obtain ⟨stem, extension, hsplit, -, hword⟩ := Path.splitName_of_wants hwants hm
  refine ⟨⟨q.trimmed, Path.folder?_join hq hn, ?_⟩, ?_, ?_, ?_⟩
  · rw [Path.folder?_join hq' hout, Path.trimmed_trimmed hq]
  · -- the names differ, since a stylesheet is wanted and its output is not
    intro hcomponents
    rw [Path.components_trimmed_join hq hout, Path.components_join hq hn] at hcomponents
    have hname : m = n := by simpa using hcomponents
    have hunwanted := Path.not_wants_outputName hwants hm
    rw [hname, hwants] at hunwanted
    cases hunwanted
  · rw [Path.hasExtension_join hq' hout, hsplit, Option.bind_some, text?_bytes, Option.any_some]
    exact hword
  · rw [Path.isOutput_join hq' hout, hsplit, text?_bytes, Option.any_some]
    exact List.isSuffixOf_iff_suffix.mpr (List.suffix_append _ _)

/-! ### Paths that can be found -/

/-- A path that can be found leads on from the root through folders to a stylesheet. -/
theorem Discoverable.exists_joins {p : Path} (h : settings.Discoverable p) :
    settings.root.raw ≠ [] ∧ ∃ names n, p = (settings.root.joins names).join n ∧
      (∀ m ∈ names, Path.IsName m) ∧ Path.IsName n ∧ settings.wants n = true := by
  obtain ⟨disk, found, htree, hfound, hp⟩ := h
  obtain ⟨hstop, rfl⟩ := discover_eq_ok_iff.mp hfound
  obtain ⟨names, n, rfl, hnames, hwants⟩ :=
    (Walk.sound_run htree hstop).exists_joins htree (List.mem_mergeSort.mp hp)
  refine ⟨Walk.root_ne_nil hstop, names, n, Path.joins_append_singleton _ _ _, ?_, ?_, hwants⟩
  · exact fun m hm => hnames m (List.mem_append_left _ hm)
  · exact hnames n (by simp)

/-- **The outputs of a batch are sound where the suffix has no slash.** A path that can be found has a stem, and has an
output exactly if its stem is a text. If the suffix has no slash, the output is as it should be, and it is the output of
no other path that can be found. If the suffix has a slash, the output is not known again. -/
theorem Discoverable.output_sound {args : List Text} {p : Path} (hargs : ofArgs args = .ok settings)
    (hp : settings.Discoverable p) :
    (∃ stem, p.stem? = some stem ∧ ((p.output? settings.suffix).isSome = true ↔ ∃ t, text? stem = some t)) ∧
      ∀ o, p.output? settings.suffix = some o →
        ('/' ∉ settings.suffix → settings.SoundOutput p o ∧
          ∀ p' o', settings.Discoverable p' → p'.output? settings.suffix = some o' →
            o'.components = o.components → p' = p) ∧
        ('/' ∈ settings.suffix → o.isOutput settings.suffix = false) := by
  have hsuffix := suffix_ne_nil hargs
  obtain ⟨hroot, names, n, rfl, hnames, hn, hwants⟩ := hp.exists_joins
  have hq := Path.joins_ne_nil hroot names
  refine ⟨⟨_, Path.stem?_join hq hn.isEntry, ?_⟩, fun o ho => ?_⟩
  · rw [Path.output?_join hq hn.isEntry, Option.isSome_map, Path.isSome_outputName?, Option.isSome_iff_exists]
  rw [Path.output?_join hq hn.isEntry] at ho
  obtain ⟨m, hm, rfl⟩ := Option.map_eq_some_iff.mp ho
  refine ⟨fun hslash => ?_, fun hslash => Path.isOutput_eq_false hslash _⟩
  refine ⟨soundOutput_join hq hn.isEntry hwants hm hsuffix hslash, ?_⟩
  intro p' o' hp' ho' heq
  obtain ⟨-, names', n', rfl, hnames', hn', hwants'⟩ := hp'.exists_joins
  have hq' := Path.joins_ne_nil hroot names'
  rw [Path.output?_join hq' hn'.isEntry] at ho'
  obtain ⟨m', hm', rfl⟩ := Option.map_eq_some_iff.mp ho'
  rw [Path.components_trimmed_join hq' (Path.isEntry_outputName hwants' hm' hn'.isEntry hsuffix hslash),
    Path.components_trimmed_join hq (Path.isEntry_outputName hwants hm hn.isEntry hsuffix hslash)] at heq
  obtain ⟨hfolders, hlast⟩ := List.append_inj' heq rfl
  have hout : m' = m := by simpa using hlast
  have hname : n' = n := Path.outputName?_injective hwants' (hout ▸ hm') hwants hm
  have hfolder : settings.root.joins names' = settings.root.joins names := by
    apply Path.joins_eq_of_key_eq hroot hnames' hnames
    exact congrArg (List.map Path.componentKey) hfolders
  rw [hname, hfolder]

end Settings

/-! ### A root with idle steps, and unusual names -/

/-- A name whose stem is no text. -/
def damagedName : Bytes := 0xFF :: bytes ".css".toList

/-- A disk with a stylesheet and its output, both with dots in their stems, and a stylesheet whose stem is no text. -/
def dottedDisk : Disk where
  home := []
  nodes := [(.ofString "r", .folder), (.ofString "r/.a..CSS", .file []), (.ofString "r/.a..x.CSS", .file []),
    ([bytes "r".toList, damagedName], .file [])]

def dottedSettings : Settings := ⟨.ofString "./r//.", ".x".toList, "css".toList, {}⟩

def dottedFound : List Path := [.ofString "./r//./.a..CSS", (Path.ofString "./r//.").join damagedName]

/-- Both stylesheets are found. -/
theorem dottedDisk_discover : (discover dottedDisk dottedSettings).result = .ok dottedFound := by
  have hsorted : dottedFound.mergeSort Path.le = dottedFound := by cbv
  have hrun : Walk.runFor dottedDisk dottedSettings 1 (.start dottedSettings)
      = ⟨[], [.ofString "r"], dottedFound, [.skippedOutput (.ofString "./r//./.a..x.CSS")], none⟩ := by cbv
  rw [discover_of_runFor 1 hrun, hsorted]

/-- The output of the first stylesheet is written without the idle steps, but in the same folder. The second one has no
output. -/
theorem Settings.output_sound_dotted :
    Settings.ofArgs ["--ext".toList, "..css".toList, "./r//.".toList, "--suffix".toList, ".x".toList]
        = .ok dottedSettings ∧
      (∀ p ∈ dottedFound, dottedSettings.Discoverable p) ∧
      dottedSettings.SoundOutput (.ofString "./r//./.a..CSS") (.ofString "./r/.a..x.CSS") ∧
      ((Path.ofString "./r//.").join damagedName).output? dottedSettings.suffix = none := by
  have hargs : Settings.ofArgs ["--ext".toList, "..css".toList, "./r//.".toList, "--suffix".toList, ".x".toList]
      = .ok dottedSettings := by decide +kernel
  have hfound : ∀ p ∈ dottedFound, dottedSettings.Discoverable p := fun p hp =>
    ⟨dottedDisk, _, by decide +kernel, dottedDisk_discover, hp⟩
  have houtput : (Path.ofString "./r//./.a..CSS").output? dottedSettings.suffix
      = some (.ofString "./r/.a..x.CSS") := by cbv
  obtain ⟨-, hsound⟩ := Discoverable.output_sound hargs (hfound (.ofString "./r//./.a..CSS") (by decide +kernel))
  obtain ⟨⟨stem, hstem, hiff⟩, -⟩ :=
    Discoverable.output_sound hargs (hfound ((Path.ofString "./r//.").join damagedName) (by decide +kernel))
  refine ⟨hargs, hfound, ((hsound _ houtput).1 (by decide +kernel)).1, ?_⟩
  have hdamaged : ((Path.ofString "./r//.").join damagedName).stem? = some [0xFF] := by cbv
  rw [hdamaged] at hstem
  cases hstem
  have hnone : text? [0xFF] = none := by decide +kernel
  rw [← Option.not_isSome_iff_eq_none, hiff, hnone]
  simp

/-! ### A suffix with a slash -/

/-- A disk with a stylesheet and a folder that has its stem for a name. -/
def slashedDisk : Disk where
  home := []
  nodes := [(.ofString "r", .folder), (.ofString "r/a.css", .file (bytes "a\x7bleft:0\x7d".toList)),
    (.ofString "r/a", .folder)]

def slashedSettings : Settings := ⟨.ofString "r", "/x".toList, "css".toList, {}⟩

/-- This disk after a batch. -/
def slashedDiskLater : Disk :=
  slashedDisk.put (.ofString "r/a/x.css") (.file (bytes "a\x7bright:0\x7d".toList))

/-- The stylesheet is found. -/
theorem slashedDisk_discover : (discover slashedDisk slashedSettings).result = .ok [.ofString "r/a.css"] := by
  have hrun : Walk.runFor slashedDisk slashedSettings 2 (.start slashedSettings)
      = ⟨[], [.ofString "r/a", .ofString "r"], [.ofString "r/a.css"], [], none⟩ := by cbv
  rw [discover_of_runFor 2 hrun, List.mergeSort_singleton]

/-- The output is found besides. -/
theorem slashedDiskLater_discover :
    (discover slashedDiskLater slashedSettings).result = .ok [.ofString "r/a/x.css", .ofString "r/a.css"] := by
  have hsorted : [Path.ofString "r/a.css", .ofString "r/a/x.css"].mergeSort Path.le
      = [.ofString "r/a/x.css", .ofString "r/a.css"] := by cbv
  have hrun : Walk.runFor slashedDiskLater slashedSettings 2 (.start slashedSettings)
      = ⟨[], [.ofString "r/a", .ofString "r"], [.ofString "r/a.css", .ofString "r/a/x.css"], [], none⟩ := by cbv
  rw [discover_of_runFor 2 hrun, hsorted]

/-- The batch writes the output into the folder below. -/
theorem slashedDisk_convertTree (schedule : Schedule) :
    (convertTree schedule slashedSettings slashedDisk).1.result
        = .ok ⟨[⟨.ofString "r/a.css", .ofString "r/a/x.css", 1⟩]⟩ ∧
      (convertTree schedule slashedSettings slashedDisk).2 = slashedDiskLater := by
  have hreflect : slashedSettings.style.reflect "a\x7bleft:0\x7d".toList
      = .ok ⟨"a\x7bright:0\x7d".toList, 1, 1, 0⟩ := by decide +kernel
  have hread : slashedDisk.readText (.ofString "r/a.css") = .ok "a\x7bleft:0\x7d".toList :=
    Disk.readText_of_resolve (L := .ofString "r/a.css") (by cbv) (by decide +kernel)
  have houtput : (Path.ofString "r/a.css").output? slashedSettings.suffix = some (.ofString "r/a/x.css") := by
    decide +kernel
  have hplace : slashedDisk.place (.ofString "r/a/x.css") = .ok (.ofString "r/a/x.css") := by cbv
  obtain ⟨hresult, hdisk⟩ :=
    convertTree_of_single schedule slashedDisk_discover houtput hread hreflect hplace
  exact ⟨hresult, hdisk.trans (by cbv)⟩

/-- **A search may find an output.** With this suffix, which is accepted, a batch writes the output into the folder
below. It is not known as an output there, and the next search finds it. -/
theorem discover_finds_output :
    Settings.ofArgs ["--suffix".toList, "/x".toList, "r".toList] = .ok slashedSettings ∧ slashedDisk.IsTree ∧
      (discover slashedDisk slashedSettings).result = .ok [.ofString "r/a.css"] ∧
      (Path.ofString "r/a.css").folder? = some (.ofString "r") ∧
      (Path.ofString "r/a/x.css").folder? = some (.ofString "r/a") ∧
      (Path.ofString "r/a/x.css").isOutput slashedSettings.suffix = false ∧
      ∀ schedule, (convertTree schedule slashedSettings slashedDisk).1.result
          = .ok ⟨[⟨.ofString "r/a.css", .ofString "r/a/x.css", 1⟩]⟩ ∧
        (discover (convertTree schedule slashedSettings slashedDisk).2 slashedSettings).result
          = .ok [.ofString "r/a/x.css", .ofString "r/a.css"] := by
  refine ⟨by decide +kernel, by decide +kernel, slashedDisk_discover, by cbv, by cbv, ?_, fun schedule => ?_⟩
  · exact Path.isOutput_eq_false (by decide +kernel) _
  · obtain ⟨hresult, hdisk⟩ := slashedDisk_convertTree schedule
    exact ⟨hresult, hdisk ▸ slashedDiskLater_discover⟩

end BidiSheet
