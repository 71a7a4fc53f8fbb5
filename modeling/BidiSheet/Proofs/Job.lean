import BidiSheet.Proofs.Discovery

/-!
# Jobs of a batch

A batch writes files beside the stylesheets that were found. Writing changes a disk in one way only: at places
that have the name of an output there is now a file, where before there was a file or nothing (`Disk.Grown`).

Converting a stylesheet is a `Job`: what is read, what is made of it and where it is written. No stylesheet has the
name of an output, and no two stylesheets have the same output, so that a job neither reads what another one
writes nor writes where another one does (`Job.nodup_targets`). Therefore a job that can be done on a disk
(`Job.Fits`) can be done there after any others, each step with the same result (`Job.Fits.readText_eq`,
`Job.Fits.create_eq`). Conversely, if both steps could be taken after some others, the job fits the disk as it was in
the beginning (`exists_reads`, `Job.Reads.fits`).
-/

namespace BidiSheet

/-- A place that has the name of an output. -/
def Settings.OutputPlace (settings : Settings) (l : Location) : Prop :=
  ∃ D n m, settings.wants n = true ∧ Path.outputName? settings.suffix n = some m ∧ D ++ [m] = l

/-- No stylesheet is at such a place. -/
theorem Settings.not_outputPlace {settings : Settings} {D : Location} {n : Bytes}
    (h : settings.wants n = true) : ¬ settings.OutputPlace (D ++ [n]) := by
  rintro ⟨D', n', m, h', hm, heq⟩
  obtain ⟨-, hn⟩ := List.append_inj' heq rfl
  rw [← List.singleton_inj.mp hn, Path.not_wants_outputName h' hm] at h
  cases h

namespace Disk

/-! ### Disks after writing -/

/-- A disk to which some outputs have been written. -/
structure Grown (settings : Settings) (disk disk' : Disk) : Prop extends Extends disk disk' where
  outputPlace : ∀ l, disk'.node? l = disk.node? l ∨ settings.OutputPlace l

namespace Grown

variable {settings : Settings} {disk disk' : Disk}

theorem refl (settings : Settings) (disk : Disk) : Grown settings disk disk :=
  ⟨⟨rfl, fun _ => .inl rfl⟩, fun _ => .inl rfl⟩

variable (h : Grown settings disk disk')

include h

/-- Only outputs are written. -/
theorem node?_eq {l : Location} (hl : ¬ settings.OutputPlace l) : disk'.node? l = disk.node? l :=
  (h.outputPlace l).resolve_right hl

/-- One more output may be written. -/
theorem put {L : Location} (hL : settings.OutputPlace L) (hfolder : disk.isFolder L = false)
    (hlink : disk.isLink L = false) (bytes : Bytes) : Grown settings disk (disk'.put L (.file bytes)) := by
  have hne : L ≠ [] := by
    rintro rfl
    cases hfolder
  refine ⟨⟨(home_put _ _).trans h.home, fun l => ?_⟩, fun l => ?_⟩ <;> rw [node?_put hne] <;> split
  · next heq => exact .inr ⟨heq ▸ hfolder, heq ▸ hlink, bytes, rfl⟩
  · exact h.node l
  · next heq => exact .inr (heq ▸ hL)
  · exact h.outputPlace l

end Grown

/-! ### A name in a folder -/

section

variable {disk : Disk} {q : Path} {D L : Location} {m : Bytes}

/-- A file can be placed in a folder under a name that is not too long and not that of a folder. -/
theorem place_join_iff (h : disk.resolve q = .ok D) (hD : disk.isFolder D = true) (hm : Path.IsName m)
    (hlink : disk.isLink (D ++ [m]) = false) :
    disk.place (q.join m) = .ok L ↔ refusal? (q.join m) = none ∧ m.length ≤ nameLimit ∧
      disk.isFolder (D ++ [m]) = false ∧ D ++ [m] = L := by
  cases hrefusal : refusal? (q.join m) with
  | some fault => simp [place, hrefusal]
  | none =>
    obtain ⟨links, hjoin⟩ := exists_resolve_join h hD
    rw [(hjoin m hm.slash_not_mem hm.ne_nil hrefusal).2, followPlace]
    by_cases hsize : m.length ≤ nameLimit
    · cases disk.isFolder (D ++ [m]) <;>
        simp [hD, hm.not_isIdle, hm.ne_up, hsize, Nat.not_lt.mpr hsize, hlink]
    · simp [hD, hm.not_isIdle, hm.ne_up, hsize, Nat.not_le.mp hsize]

/-- What is in a folder and no link can be resolved by its name. -/
theorem resolve_join {node : Node} (h : disk.resolve q = .ok D) (hD : disk.isFolder D = true)
    (hm : Path.IsName m) (hsize : m.length ≤ nameLimit) (hrefusal : refusal? (q.join m) = none)
    (hnode : disk.node? (D ++ [m]) = some node) (hlink : ∀ target, node ≠ .link target) :
    disk.resolve (q.join m) = .ok (D ++ [m]) := by
  obtain ⟨links, hjoin⟩ := exists_resolve_join h hD
  rw [(hjoin m hm.slash_not_mem hm.ne_nil hrefusal).1,
    follow_enter hD hm.not_isIdle hm.ne_up hsize hnode hlink, Disk.follow]

end

/-- A path with a place is not refused. -/
theorem refusal?_of_place {disk : Disk} {path : Path} {L : Location} (h : disk.place path = .ok L) :
    refusal? path = none := by
  cases hrefusal : refusal? path with
  | none => rfl
  | some fault =>
    rw [place, hrefusal] at h
    cases h

/-- When a file can be created, and what is left then. -/
theorem create_eq_ok_iff {disk disk' : Disk} {path : Path} {L : Location} :
    disk.create path = .ok (L, disk') ↔ disk.place path = .ok L ∧ disk.put L (.file []) = disk' := by
  unfold create
  cases disk.place path with
  | ok L' =>
    simp only [bind, Except.bind, pure, Except.pure, Except.ok.injEq, Prod.mk.injEq]
    constructor
    · rintro ⟨rfl, hput⟩
      exact ⟨rfl, hput⟩
    · rintro ⟨rfl, hput⟩
      exact ⟨rfl, hput⟩
  | error fault => simp [bind, Except.bind]

/-- A file that holds a text is read as that text. -/
theorem readText_of_resolve {disk : Disk} {path : Path} {L : Location} {t : Text}
    (h : disk.resolve path = .ok L) (hnode : disk.node? L = some (.file (bytes t))) :
    disk.readText path = .ok t := by
  simp [readText, read, h, hnode, bind, Except.bind, text?_bytes]

/-! ### Links -/

/-- What a path names is itself a link. -/
def LinkAt (disk : Disk) (path : Path) : Prop :=
  ∃ l, disk.entryOf path = .ok l ∧ disk.isLink l = true

/-- A path is that of a link if its place is. -/
theorem linkAt_iff {disk : Disk} {path : Path} {l : Location} (h : disk.entryOf path = .ok l) :
    disk.LinkAt path ↔ disk.isLink l = true := by
  constructor
  · rintro ⟨l', h', hlink⟩
    obtain rfl : l = l' := Except.ok.inj (h.symm.trans h')
    exact hlink
  · exact fun hlink => ⟨l, h, hlink⟩

/-- A stylesheet that is no link is where its name is. -/
theorem Finds.resolve_eq {disk : Disk} {settings : Settings} {p q : Path} {D : Location} {n : Bytes}
    (htree : disk.IsTree) (h : disk.Finds settings p q D n) (hlink : ¬ disk.LinkAt p) :
    disk.resolve p = .ok (D ++ [n]) := by
  have hname := htree.isName_of_mem_names h.mem
  obtain ⟨x, hx, hlead, -⟩ := h.exists_leads htree
  rw [hx]
  cases hlead with
  | idle _ hidle _ => exact absurd hidle (by simp [hname.not_isIdle])
  | up _ _ => exact absurd rfl hname.ne_up
  | enter _ _ _ _ _ rest =>
    cases rest
    rfl
  | link _ _ _ hnode _ =>
    refine absurd ((linkAt_iff (h.entryOf htree)).mpr ?_) hlink
    unfold isLink
    rw [hnode]

/-- **Writing outputs does not change what is in a stylesheet** that is no link. -/
theorem Finds.readText_eq {disk disk' : Disk} {settings : Settings} {p q : Path} {D : Location} {n : Bytes}
    (htree : disk.IsTree) (h : disk.Finds settings p q D n) (hlink : ¬ disk.LinkAt p)
    (hgrown : Grown settings disk disk') : disk'.readText p = disk.readText p := by
  have hresolve := h.resolve_eq htree hlink
  have hnode := hgrown.node?_eq (settings.not_outputPlace (D := D) h.wants)
  unfold readText read
  rw [hresolve, hgrown.resolve hresolve]
  simp only [bind, Except.bind, hnode]

end Disk

/-! ### Jobs -/

/-- What is done for one stylesheet. -/
structure Job where
  /-- The path of its folder, and where that folder is. -/
  folder : Path
  place : Location
  name : Bytes
  outName : Bytes
  source : Text
  sheet : Sheet

namespace Job

/-- The path of the stylesheet. -/
def input (job : Job) : Path := job.folder.join job.name

/-- The path of the output, beside the stylesheet. -/
def output (job : Job) : Path := job.folder.trimmed.join job.outName

/-- The place of the output. -/
def target (job : Job) : Location := job.place ++ [job.outName]

/-- The report on a job. -/
def report (job : Job) : Report := ⟨job.input, job.output, job.sheet.substitutions⟩

/-- A job whose stylesheet is found on a disk, and can be read and reflected. -/
structure Reads (disk : Disk) (settings : Settings) (job : Job) : Prop where
  finds : disk.Finds settings job.input job.folder job.place job.name
  not_linkAt : ¬ disk.LinkAt job.input
  readText : disk.readText job.input = .ok job.source
  reflect : settings.style.reflect job.source = .ok job.sheet
  outName : Path.outputName? settings.suffix job.name = some job.outName

/-- A job that can be done on a disk: there is room for its output too. -/
structure Fits (disk : Disk) (settings : Settings) (job : Job) : Prop extends Reads disk settings job where
  isName : Path.IsName job.outName
  size : job.outName.length ≤ Disk.nameLimit
  accepted : Disk.refusal? job.output = none
  isFolder : disk.isFolder job.target = false
  isLink : disk.isLink job.target = false

variable {disk disk' : Disk} {settings : Settings} {job : Job} {jobs : List Job}

theorem target_ne_nil (job : Job) : job.target ≠ [] := by simp [target]

namespace Reads

variable (h : job.Reads disk settings)

include h

/-- The target of a job is the place of an output. -/
theorem outputPlace : settings.OutputPlace job.target :=
  ⟨job.place, job.name, job.outName, h.finds.wants, h.outName, rfl⟩

/-- The output of a job is that of its stylesheet. -/
theorem output?_eq (htree : disk.IsTree) : job.input.output? settings.suffix = some job.output := by
  obtain ⟨-, hfolder, -⟩ := Disk.resolve_eq_ok_iff.mp h.finds.resolve_folder
  rw [input, Path.output?_join hfolder (htree.isName_of_mem_names h.finds.mem).isEntry, h.outName, Option.map_some,
    output]

/-- The folder of a job can be resolved without the steps that are idle. -/
theorem resolve_folder : disk.resolve job.folder.trimmed = .ok job.place :=
  Disk.resolve_trimmed h.finds.resolve_folder h.finds.isFolder

/-- **What a job reads is not changed by others.** -/
theorem readText_eq (htree : disk.IsTree) (hgrown : Disk.Grown settings disk disk') :
    disk'.readText job.input = .ok job.source := by
  rw [h.finds.readText_eq htree h.not_linkAt hgrown, h.readText]

/-- **A job whose output could be opened fits**, though others had been opened and written before. -/
theorem fits (htree : disk.IsTree) (hsuffix : settings.suffix ≠ []) (hslash : '/' ∉ settings.suffix)
    (hlink : ¬ disk.LinkAt job.output) (hgrown : Disk.Grown settings disk disk') {L : Location}
    (hplace : disk'.place job.output = .ok L) : job.Fits disk settings ∧ L = job.target := by
  have haccepted := Disk.refusal?_of_place hplace
  have hname : Path.IsName job.outName :=
    Path.isName_outputName h.finds.wants h.outName (htree.isName_of_mem_names h.finds.mem) hsuffix hslash
      fun hnul => (Disk.refusal?_eq_none_iff.mp haccepted).1
        (Path.mem_join (Path.mem_outputName h.finds.wants h.outName hnul))
  have hlink : disk.isLink job.target = false := Bool.eq_false_iff.mpr fun hyes => hlink
    ((Disk.linkAt_iff (Disk.entryOf_join h.resolve_folder h.finds.isFolder hname)).mpr hyes)
  obtain ⟨-, hsize, hfolder, rfl⟩ := (Disk.place_join_iff (hgrown.resolve h.resolve_folder)
    ((hgrown.isFolder_eq _).trans h.finds.isFolder) hname ((hgrown.isLink_eq _).trans hlink)).mp hplace
  exact ⟨{ h with
    isName := hname
    size := hsize
    accepted := haccepted
    isFolder := (hgrown.isFolder_eq _).symm.trans hfolder
    isLink := hlink }, rfl⟩

end Reads

namespace Fits

variable (h : job.Fits disk settings)

include h

/-- The output of a job has its target for a place. -/
theorem entryOf_output : disk.entryOf job.output = .ok job.target :=
  Disk.entryOf_join h.resolve_folder h.finds.isFolder h.isName

section

variable (hgrown : Disk.Grown settings disk disk')

include hgrown

/-- Writing the output of a job lets the disk grow. -/
theorem grown_put (bytes : Bytes) : Disk.Grown settings disk (disk'.put job.target (.file bytes)) :=
  hgrown.put h.outputPlace h.isFolder h.isLink bytes

/-- **Where a job writes is not changed by others.** -/
theorem create_eq : disk'.create job.output = .ok (job.target, disk'.put job.target (.file [])) := by
  refine Disk.create_eq_ok_iff.mpr ⟨?_, rfl⟩
  refine (Disk.place_join_iff (hgrown.resolve h.resolve_folder) ?_ h.isName ?_).mpr
    ⟨h.accepted, h.size, ?_, rfl⟩
  · exact (hgrown.isFolder_eq _).trans h.finds.isFolder
  · exact (hgrown.isLink_eq _).trans h.isLink
  · exact (hgrown.isFolder_eq _).trans h.isFolder

/-- The output of a job is read as it was written. -/
theorem readText_output (hnode : disk'.node? job.target = some (.file (bytes job.sheet.text))) :
    disk'.readText job.output = .ok job.sheet.text := by
  have hfolder : disk'.isFolder job.place = true := (hgrown.isFolder_eq _).trans h.finds.isFolder
  exact Disk.readText_of_resolve (Disk.resolve_join (hgrown.resolve h.resolve_folder) hfolder h.isName h.size
    h.accepted hnode (by simp)) hnode

end

end Fits

/-- **No two jobs write to one place.** -/
theorem nodup_targets (htree : disk.IsTree) (hjobs : ∀ job ∈ jobs, job.Fits disk settings)
    (hnodup : ((jobs.map input).map disk.entryOf).Nodup) : (jobs.map target).Nodup := by
  rw [List.map_map] at hnodup
  refine hnodup.of_map.map_on fun job hjob job' hjob' htarget => ?_
  have hfits := hjobs job hjob
  have hfits' := hjobs job' hjob'
  obtain ⟨hplace, hname⟩ := List.append_inj' htarget rfl
  have hout := hfits'.outName
  rw [← List.singleton_inj.mp hname] at hout
  have hname := Path.outputName?_injective hfits.finds.wants hfits.outName hfits'.finds.wants hout
  refine List.inj_on_of_nodup_map hnodup hjob hjob' ?_
  rw [Function.comp_apply, Function.comp_apply, hfits.finds.entryOf htree, hfits'.finds.entryOf htree, hplace,
    hname]

end Job

/-- **A stylesheet that could be read and reflected is a job that does so**, though other reflections had been
written before. -/
theorem exists_reads {disk disk' : Disk} {settings : Settings} {p q : Path} {D : Location} {n : Bytes}
    {output : Path} {source : Text} {sheet : Sheet} (htree : disk.IsTree) (hfinds : disk.Finds settings p q D n)
    (hlink : ¬ disk.LinkAt p) (hgrown : Disk.Grown settings disk disk')
    (houtput : p.output? settings.suffix = some output) (hread : disk'.readText p = .ok source)
    (hreflect : settings.style.reflect source = .ok sheet) :
    ∃ job : Job, job.Reads disk settings ∧ job.input = p ∧ job.output = output ∧ job.sheet = sheet := by
  obtain rfl := hfinds.path
  have hq := (Disk.resolve_eq_ok_iff.mp hfinds.resolve_folder).2.1
  rw [Path.output?_join hq (htree.isName_of_mem_names hfinds.mem).isEntry] at houtput
  obtain ⟨outName, hout, rfl⟩ := Option.map_eq_some_iff.mp houtput
  refine ⟨⟨q, D, n, outName, source, sheet⟩, ?_, rfl, rfl, rfl⟩
  exact {
    finds := hfinds
    not_linkAt := hlink
    readText := (hfinds.readText_eq htree hlink hgrown).symm.trans hread
    reflect := hreflect
    outName := hout }

end BidiSheet
