import BidiSheet.Proofs.Resolution
import BidiSheet.Proofs.Tree

/-!
# Steps of a search

What a search does with the next folder is said once, by `Walk.Step`: either the folder has been searched
before, or its names are gone through, and the folders and stylesheets among them are noted. A search that
is not given up is a chain of such steps that leaves no folder pending (`Walk.run_steps`), and it is not
given up as long as the next folder can be listed and looked through (`Walk.stop_run`). So whatever each step
preserves holds at the end.

This is used here for what is found (`Walk.Sound`): every stylesheet found is a name in a folder to which a
trail leads from the root, and no place is found twice. A trail (`Disk.Trail`) passes through no folder
twice, since folders that were searched before are not searched again.
-/

namespace BidiSheet

namespace Disk

variable {disk : Disk} {path : Path} {entry x : Location} {l : Listing}

/-! ### Looking at a folder and at a name -/

/-- When an entry is a folder. -/
theorem status_eq_folder_iff :
    disk.status entry path = .folder ↔ ∃ x, disk.resolve path = .ok x ∧ disk.isFolder x = true := by
  unfold status
  split
  · next x hx => simp [hx]
  · next fault hfault =>
    split <;> simp [hfault]

/-- When an entry is a file. -/
theorem status_eq_file_iff :
    disk.status entry path = .file ↔ ∃ x, disk.resolve path = .ok x ∧ disk.isFolder x = false := by
  unfold status
  split
  · next x hx => simp [hx]
  · next fault hfault =>
    split <;> simp [hfault]

/-- A path is resolved if it is short enough and leads somewhere. -/
theorem resolve_eq_ok_iff_locate :
    disk.resolve path = .ok x ↔ path.raw.length ≤ pathLimit ∧ disk.locate path = .ok x := by
  unfold resolve refusal?
  by_cases hnul : nul ∈ path.raw
  · simp [locate, hnul]
  · by_cases hsize : pathLimit < path.raw.length
    · simp [hnul, hsize, Nat.not_le.mpr hsize]
    · simp [hnul, hsize, Nat.not_lt.mp hsize]

/-- A folder can be listed if its path leads to it, and the path of its location is not too long. -/
theorem listing_eq_ok_iff :
    disk.listing path = .ok l ↔ disk.resolve path = .ok l.real ∧ extent l.real ≤ pathLimit ∧
      disk.isFolder l.real = true ∧
        l.entries = (disk.names l.real).map fun n => (n, disk.status (l.real ++ [n]) (path.join n)) := by
  rw [resolve_eq_ok_iff_locate]
  unfold listing
  constructor
  · intro h
    split at h
    · cases h
    next loc hloc =>
    split at h
    · cases h
    next hsize =>
    split at h
    · next hfolder =>
      cases h
      have hmax := max_le_iff.mp (Nat.not_lt.mp hsize)
      exact ⟨⟨hmax.1, hloc⟩, hmax.2, hfolder, rfl⟩
    · cases h
  · rintro ⟨⟨hsize, hloc⟩, hextent, hfolder, hentries⟩
    have hmax : ¬ pathLimit < max path.raw.length (extent l.real) :=
      Nat.not_lt.mpr (max_le hsize hextent)
    simp only [hloc, if_neg hmax, hfolder, if_true, ← hentries]

end Disk

namespace Walk

variable {disk : Disk} {settings : Settings} {w w' : Walk}

/-! ### Going through a folder -/

/-- Whether a search goes on after this entry of a folder. -/
def isSeen (entry : Bytes × Status) : Bool :=
  match entry.2 with
  | .unreachable _ => false
  | _ => true

/-- A search goes on after a name that can be resolved, and after a link. -/
theorem isSeen_status_iff {n : Bytes} {entry : Location} {path : Path} :
    isSeen (n, disk.status entry path) = true ↔
      (∃ x, disk.resolve path = .ok x) ∨ Disk.refusal? path = none ∧ disk.isLink entry = true := by
  unfold isSeen Disk.status
  cases hresolve : disk.resolve path with
  | ok x => cases hx : disk.isFolder x <;> simp [hx]
  | error fault =>
    by_cases hlink : Disk.refusal? path = none ∧ disk.isLink entry = true <;> simp [hlink]

/-- Whether an entry of a folder is a stylesheet that wants reflecting. -/
def isSheet (settings : Settings) (folder : Path) (entry : Bytes × Status) : Bool :=
  entry.2 = .file && (folder.join entry.1).hasExtension settings.extension &&
    !(folder.join entry.1).isOutput settings.suffix

/-- The folders among some entries of a folder, in the order in which they are searched. -/
def foldersOf (folder : Path) (entries : List (Bytes × Status)) : List Path :=
  ((entries.filter (·.2 = .folder)).map (folder.join ·.1)).reverse

/-- The stylesheets among some entries of a folder. -/
def sheetsOf (settings : Settings) (folder : Path) (entries : List (Bytes × Status)) : List Path :=
  (entries.filter (isSheet settings folder)).map (folder.join ·.1)

/-- Going through the entries of a folder. -/
def meetAll (settings : Settings) (folder : Path) (entries : List (Bytes × Status)) (w : Walk) : Walk :=
  entries.foldl (fun w (name, status) => w.meet settings (folder.join name) status) w

/-- A search that was given up meets nothing more. -/
theorem meetAll_of_stop (folder : Path) (entries : List (Bytes × Status)) (h : w.stop.isSome = true) :
    meetAll settings folder entries w = w := by
  induction entries with
  | nil => rfl
  | cons e entries ih =>
    have hmeet : w.meet settings (folder.join e.1) e.2 = w := by
      unfold meet
      rw [if_pos h]
    rw [meetAll, List.foldl_cons]
    change meetAll settings folder entries (w.meet settings (folder.join e.1) e.2) = w
    rw [hmeet, ih]

/-- Meeting an entry that does not end the search. -/
theorem meet_spec (settings : Settings) (folder : Path) {e : Bytes × Status} (hw : w.stop = none)
    (he : isSeen e = true) :
    (w.meet settings (folder.join e.1) e.2).stop = none ∧
      (w.meet settings (folder.join e.1) e.2).pending = foldersOf folder [e] ++ w.pending ∧
        (w.meet settings (folder.join e.1) e.2).found = w.found ++ sheetsOf settings folder [e] := by
  obtain ⟨n, status⟩ := e
  cases status with
  | folder => simp [meet, hw, foldersOf, sheetsOf, isSheet]
  | file =>
    cases hext : (folder.join n).hasExtension settings.extension <;>
      cases hout : (folder.join n).isOutput settings.suffix <;>
        simp [meet, hw, foldersOf, sheetsOf, isSheet, hext, hout]
  | broken fault => simp [meet, hw, foldersOf, sheetsOf, isSheet]
  | unreachable fault => cases he

/-- Meeting an entry that ends the search. -/
theorem meet_stop (settings : Settings) (folder : Path) (w : Walk) {e : Bytes × Status} (he : isSeen e = false) :
    (w.meet settings (folder.join e.1) e.2).stop.isSome = true := by
  obtain ⟨n, status⟩ := e
  unfold meet
  split
  · assumption
  · cases status with
    | unreachable fault => rfl
    | folder | file | broken fault => cases he

/-- **Going through a folder** notes the folders and stylesheets in it, unless it ends at an entry that
cannot be looked at. -/
theorem meetAll_spec (settings : Settings) (folder : Path) (entries : List (Bytes × Status)) (hw : w.stop = none) :
    ((meetAll settings folder entries w).stop = none ↔ entries.all isSeen = true) ∧
      (entries.all isSeen = true →
        (meetAll settings folder entries w).pending = foldersOf folder entries ++ w.pending ∧
          (meetAll settings folder entries w).found = w.found ++ sheetsOf settings folder entries) := by
  induction entries generalizing w with
  | nil => simp [meetAll, hw, foldersOf, sheetsOf]
  | cons e entries ih =>
    have hcons : meetAll settings folder (e :: entries) w
        = meetAll settings folder entries (w.meet settings (folder.join e.1) e.2) := rfl
    rw [hcons, List.all_cons]
    cases he : isSeen e with
    | false =>
      have hstop := meet_stop settings folder w he
      rw [meetAll_of_stop folder entries hstop]
      simp [Option.isSome_iff_ne_none.mp hstop]
    | true =>
      obtain ⟨hstop, hpending, hfound⟩ := meet_spec settings folder hw he
      obtain ⟨ihstop, ihrest⟩ := ih hstop
      rw [Bool.true_and]
      refine ⟨ihstop, fun hall => ?_⟩
      obtain ⟨ihpending, ihfound⟩ := ihrest hall
      have hfolders : foldersOf folder (e :: entries) = foldersOf folder entries ++ foldersOf folder [e] := by
        unfold foldersOf
        rw [← List.reverse_append, ← List.map_append, ← List.filter_append]
        rfl
      have hsheets : sheetsOf settings folder (e :: entries)
          = sheetsOf settings folder [e] ++ sheetsOf settings folder entries := by
        unfold sheetsOf
        rw [← List.map_append, ← List.filter_append]
        rfl
      rw [ihpending, ihfound, hpending, hfound, hfolders, hsheets, List.append_assoc, List.append_assoc]
      exact ⟨rfl, rfl⟩

/-! ### Steps -/

/-- What a search does with the next folder. -/
inductive Step (disk : Disk) (settings : Settings) (w w' : Walk) : Prop where
  /-- It was searched before. -/
  | again {folder : Path} {l : Listing} (hfolder : w.pending = folder :: w'.pending)
      (hlisting : disk.listing folder = .ok l) (hreal : l.real ∈ w.visited)
      (hvisited : w'.visited = w.visited) (hfound : w'.found = w.found)
  /-- It is searched. -/
  | search {folder : Path} {pending : List Path} {l : Listing} (hfolder : w.pending = folder :: pending)
      (hlisting : disk.listing folder = .ok l) (hreal : l.real ∉ w.visited)
      (hseen : l.entries.all isSeen = true) (hvisited : w'.visited = l.real :: w.visited)
      (hpending : w'.pending = foldersOf folder l.entries ++ pending)
      (hfound : w'.found = w.found ++ sheetsOf settings folder l.entries)

section

variable {folder : Path} {pending : List Path} {l : Listing} (hw : w.stop = none)

include hw

/-- When a search goes on behind a folder. -/
theorem stop_enter (settings : Settings) (folder : Path) (pending : List Path) :
    ({ w with pending := pending }.enter settings folder l).stop = none ↔
      l.real ∈ w.visited ∨ l.entries.all isSeen = true := by
  unfold enter
  split
  · next hreal => simp_all
  · next hreal =>
    have hspec := meetAll_spec (w := { w with pending, visited := l.real :: w.visited }) settings folder
      l.entries hw
    exact hspec.1.trans (by simp_all)

/-- A step of the search into a folder that can be listed. -/
theorem step_enter (hpending : w.pending = folder :: pending) (hlisting : disk.listing folder = .ok l)
    (hstop : ({ w with pending := pending }.enter settings folder l).stop = none) :
    Step disk settings w ({ w with pending := pending }.enter settings folder l) := by
  by_cases hreal : l.real ∈ w.visited
  · have henter : { w with pending := pending }.enter settings folder l
        = { w with pending := pending, notices := w.notices ++ [.alreadyWalked folder] } := by
      unfold enter
      exact if_pos hreal
    rw [henter]
    exact .again hpending hlisting hreal rfl rfl
  · have hseen : l.entries.all isSeen = true := ((stop_enter hw settings folder pending).mp hstop).resolve_left hreal
    have henter : { w with pending := pending }.enter settings folder l
        = meetAll settings folder l.entries { w with pending := pending, visited := l.real :: w.visited } := by
      unfold enter
      exact if_neg hreal
    obtain ⟨hpend, hfound⟩ := (meetAll_spec (w := { w with pending, visited := l.real :: w.visited }) settings
      folder l.entries hw).2 hseen
    rw [henter]
    exact .search hpending hlisting hreal hseen (visited_foldl_meet _ _ _ _) hpend hfound

/-- The search goes on with the first folder that is pending. -/
theorem next?_of_pending (hpending : w.pending = folder :: pending) : w.next? = some folder := by
  rw [next?, hw, hpending]
  rfl

/-- When there is nothing to go on with, nothing is pending. -/
theorem pending_eq_nil (h : w.next? = none) : w.pending = [] := by
  rw [next?, hw] at h
  exact List.head?_eq_none_iff.mp h

end

/-- A search that goes on was not given up, and its next folder is the first one pending. -/
theorem of_next? {folder : Path} (h : w.next? = some folder) :
    w.stop = none ∧ w.pending = folder :: w.pending.tail := by
  unfold next? at h
  split at h
  · cases h
  · next hstop => exact ⟨by simpa using hstop, (List.cons_head?_tail h).symm⟩

/-- A search resumes with the folder that was listed. -/
theorem resume_ok {folder : Path} {pending : List Path} (hpending : w.pending = folder :: pending) (l : Listing) :
    w.resume settings folder (.ok l) = { w with pending := pending }.enter settings folder l := by
  rw [resume, hpending]
  rfl

/-- A run lists the next folder and goes on. -/
theorem run_of_next? {folder : Path} (h : w.next? = some folder) :
    run disk settings w = run disk settings (w.resume settings folder (disk.listing folder)) := by
  rw [run]
  split
  · next hnone => rw [h] at hnone; cases hnone
  · next hsome =>
    rw [h] at hsome
    cases hsome
    rfl

/-- A run without a next folder is over. -/
theorem run_of_next?_eq_none (h : w.next? = none) : run disk settings w = w := by
  rw [run]
  split
  · rfl
  · next hsome => rw [h] at hsome; cases hsome

/-- A search that was given up goes no further. -/
theorem run_resume_error (folder : Path) (fault : DiskFault) :
    run disk settings (w.resume settings folder (.error fault)) = w.resume settings folder (.error fault) :=
  run_of_next?_eq_none rfl

/-- The beginning of a search: so many folders, or fewer. Other than `run`, it can be evaluated. -/
def runFor (disk : Disk) (settings : Settings) : Nat → Walk → Walk
  | 0, w => w
  | n + 1, w =>
    match w.next? with
    | none => w
    | some folder => runFor disk settings n (w.resume settings folder (disk.listing folder))

/-- A search goes on from its beginning. -/
theorem run_runFor (n : Nat) (w : Walk) :
    run disk settings (runFor disk settings n w) = run disk settings w := by
  induction n generalizing w with
  | zero => rfl
  | succ n ih =>
    unfold runFor
    split
    · rfl
    · next hnext => rw [ih, run_of_next? hnext]

/-- **A search that is not given up is a chain of steps** that leaves no folder pending. -/
theorem run_steps (h : (run disk settings w).stop = none) :
    w.stop = none ∧ (run disk settings w).pending = [] ∧
      Relation.ReflTransGen (Step disk settings) w (run disk settings w) := by
  fun_induction run disk settings w with
  | case1 w hnext => exact ⟨h, pending_eq_nil h hnext, .refl⟩
  | case2 w folder hnext ih =>
    obtain ⟨hw, hpending⟩ := of_next? hnext
    cases hlisting : disk.listing folder with
    | error fault =>
      rw [hlisting, run_resume_error] at h
      cases h
    | ok l =>
      rw [hlisting, resume_ok hpending] at ih h
      rw [resume_ok hpending]
      obtain ⟨henter, hnil, hsteps⟩ := ih h
      exact ⟨hw, hnil, .head (step_enter hw hpending hlisting henter) hsteps⟩

/-- A search that is not given up goes on with the next folder. -/
theorem run_of_pending {folder : Path} {pending : List Path} (h : (run disk settings w).stop = none)
    (hpending : w.pending = folder :: pending) :
    ∃ l, disk.listing folder = .ok l ∧
      ({ w with pending := pending }.enter settings folder l).stop = none ∧
        run disk settings w = run disk settings ({ w with pending := pending }.enter settings folder l) := by
  have hrun : run disk settings w = run disk settings (w.resume settings folder (disk.listing folder)) :=
    run_of_next? (next?_of_pending (run_steps h).1 hpending)
  cases hlisting : disk.listing folder with
  | error fault =>
    rw [hrun, hlisting, run_resume_error] at h
    cases h
  | ok l =>
    rw [hlisting, resume_ok hpending] at hrun
    exact ⟨l, rfl, (run_steps (hrun ▸ h)).1, hrun⟩

/-- What steps preserve holds in the end, if the search is not given up. -/
theorem run_preserves {P : Walk → Prop} (hstep : ∀ w w', P w → Step disk settings w w' → P w')
    (h : (run disk settings w).stop = none) (hP : P w) : P (run disk settings w) := by
  obtain ⟨-, -, hsteps⟩ := run_steps h
  generalize run disk settings w = w' at hsteps
  induction hsteps with
  | refl => exact hP
  | tail _ hlast ih => exact hstep _ _ ih hlast

/-- **A search is not given up** if what its steps preserve makes sure that the next folder can be listed,
and looked through if it was not searched before. -/
theorem stop_run {P : Walk → Prop} (hstep : ∀ w w', P w → Step disk settings w w' → P w')
    (hlist : ∀ w folder pending, P w → w.pending = folder :: pending →
      ∃ l, disk.listing folder = .ok l ∧ (l.real ∈ w.visited ∨ l.entries.all isSeen = true))
    (hw : w.stop = none) (hP : P w) : (run disk settings w).stop = none := by
  fun_induction run disk settings w with
  | case1 w hnext => exact hw
  | case2 w folder hnext ih =>
    obtain ⟨-, hpending⟩ := of_next? hnext
    obtain ⟨l, hlisting, hseen⟩ := hlist w folder _ hP hpending
    have henter := (stop_enter hw settings folder w.pending.tail).mpr hseen
    rw [hlisting, resume_ok hpending] at ih ⊢
    exact ih henter (hstep _ _ hP (step_enter hw hpending hlisting henter))

/-! ### What is in a folder that can be listed -/

section

variable {folder : Path} {l : Listing} (h : disk.listing folder = .ok l)

include h

/-- The folders in a listing are the names whose status is that of a folder. -/
theorem foldersOf_listing :
    foldersOf folder l.entries = (((disk.names l.real).filter fun n =>
      disk.status (l.real ++ [n]) (folder.join n) = .folder).map folder.join).reverse := by
  obtain ⟨-, -, -, hentries⟩ := Disk.listing_eq_ok_iff.mp h
  rw [foldersOf, hentries, List.filter_map, List.map_map]
  rfl

/-- The stylesheets in a listing are the names of files that are wanted. -/
theorem sheetsOf_listing (htree : disk.IsTree) :
    sheetsOf settings folder l.entries = ((disk.names l.real).filter fun n =>
      disk.status (l.real ++ [n]) (folder.join n) = .file && settings.wants n).map folder.join := by
  obtain ⟨hresolve, -, -, hentries⟩ := Disk.listing_eq_ok_iff.mp h
  have hfolder := (Disk.resolve_eq_ok_iff.mp hresolve).2.1
  rw [sheetsOf, hentries, List.filter_map, List.map_map]
  refine congrArg (List.map folder.join) (List.filter_congr fun n hn => ?_)
  have hname := (htree.isName_of_mem_names hn).isEntry
  rw [Function.comp_apply, isSheet, Path.hasExtension_join hfolder hname, Path.isOutput_join hfolder hname,
    Settings.wants, Bool.and_assoc]

end

end Walk

/-! ### Trails -/

namespace Disk

/-- A way from the root through folders, none of which is passed twice, and the folders on it, the last one
first. -/
inductive Trail (disk : Disk) (root : Path) : Path → List Location → Prop where
  | root {D : Location} (hlead : disk.LeadsTo root D) (hfolder : disk.isFolder D = true) :
      Trail disk root root [D]
  | enter {q : Path} {D D' : Location} {Ds : List Location} {n : Bytes} (trail : Trail disk root q (D :: Ds))
      (hn : n ∈ disk.names D) (hlead : disk.Leads D [n] D') (hfolder : disk.isFolder D' = true)
      (hnew : D' ∉ D :: Ds) : Trail disk root (q.join n) (D' :: D :: Ds)

/-- A stylesheet that wants reflecting, under the path on which it is found: it is a name in a folder and
leads to something that is no folder. -/
structure Finds (disk : Disk) (settings : Settings) (p q : Path) (D : Location) (n : Bytes) : Prop where
  path : p = q.join n
  resolve_folder : disk.resolve q = .ok D
  isFolder : disk.isFolder D = true
  mem : n ∈ disk.names D
  wants : settings.wants n = true
  resolve : ∃ x, disk.resolve p = .ok x ∧ disk.isFolder x = false

variable {disk : Disk} {settings : Settings} {root p q : Path} {D : Location} {Ds : List Location} {n : Bytes}

theorem Trail.ne_nil (hroot : root.raw ≠ []) (h : disk.Trail root q Ds) : q.raw ≠ [] := by
  induction h with
  | root => exact hroot
  | enter _ _ _ _ _ ih => exact Path.join_ne_nil ih _

/-- A trail leads to its last folder. -/
theorem Trail.leadsTo (hroot : root.raw ≠ []) (htree : disk.IsTree) (h : disk.Trail root q (D :: Ds)) :
    disk.LeadsTo q D := by
  generalize hDs : D :: Ds = Ds' at h
  induction h generalizing D Ds with
  | root hlead _ =>
    cases hDs
    exact hlead
  | enter trail hn hlead _ _ ih =>
    cases hDs
    exact (leadsTo_join (trail.ne_nil hroot) (htree.isName_of_mem_names hn).slash_not_mem (ih rfl)).mpr hlead

/-- The path of a trail leads on from the root through names. -/
theorem Trail.exists_joins (htree : disk.IsTree) (h : disk.Trail root q Ds) :
    ∃ names, q = root.joins names ∧ ∀ n ∈ names, Path.IsName n := by
  induction h with
  | root => exact ⟨[], rfl, fun n hn => absurd hn List.not_mem_nil⟩
  | @enter q D D' Ds n trail hn hlead hfolder hnew ih =>
    obtain ⟨names, rfl, hnames⟩ := ih
    refine ⟨names ++ [n], (Path.joins_append_singleton root names n).symm, fun m hm => ?_⟩
    rcases List.mem_append.mp hm with hm | hm
    · exact hnames m hm
    · rw [List.mem_singleton.mp hm]
      exact htree.isName_of_mem_names hn

/-- What is found has its place in the folder where it is found. -/
theorem Finds.entryOf (htree : disk.IsTree) (h : disk.Finds settings p q D n) :
    disk.entryOf p = .ok (D ++ [n]) := by
  rw [h.path, entryOf_join h.resolve_folder h.isFolder (htree.isName_of_mem_names h.mem)]

end Disk

namespace Walk

variable {disk : Disk} {settings : Settings} {w w' : Walk}

/-! ### What is found -/

/-- What a search has noted is there: folders in which it has come on a trail, and stylesheets, none of them
twice. -/
structure Sound (disk : Disk) (settings : Settings) (w : Walk) : Prop where
  pending : ∀ p ∈ w.pending, p = settings.root ∨ ∃ q D Ds n, disk.Trail settings.root q (D :: Ds) ∧
    D :: Ds ⊆ w.visited ∧ n ∈ disk.names D ∧ p = q.join n
  visited : ∀ D ∈ w.visited, ∃ q Ds, disk.Trail settings.root q (D :: Ds)
  found : ∀ p ∈ w.found, ∃ q D Ds n, disk.Trail settings.root q (D :: Ds) ∧ D ∈ w.visited ∧
    disk.Finds settings p q D n
  nodup : (w.found.map disk.entryOf).Nodup

section

variable (htree : disk.IsTree) {folder : Path} {l : Listing} (h : disk.listing folder = .ok l)

include htree h

/-- The stylesheets of a listing are found. -/
theorem finds_of_mem_sheetsOf {p : Path} (hp : p ∈ sheetsOf settings folder l.entries) :
    ∃ n, disk.Finds settings p folder l.real n := by
  obtain ⟨hresolve, -, hfolder, -⟩ := Disk.listing_eq_ok_iff.mp h
  rw [sheetsOf_listing h htree] at hp
  obtain ⟨n, hn, rfl⟩ := List.mem_map.mp hp
  obtain ⟨hn, hsheet⟩ := List.mem_filter.mp hn
  obtain ⟨hfile, hwants⟩ := Bool.and_eq_true_iff.mp hsheet
  exact ⟨n, rfl, hresolve, hfolder, hn, hwants, Disk.status_eq_file_iff.mp (of_decide_eq_true hfile)⟩

/-- The stylesheets of a listing have places of their own. -/
theorem nodup_sheetsOf : ((sheetsOf settings folder l.entries).map disk.entryOf).Nodup := by
  obtain ⟨hresolve, -, hfolder, -⟩ := Disk.listing_eq_ok_iff.mp h
  rw [sheetsOf_listing h htree, List.map_map]
  refine ((htree.nodup_names l.real).filter _).map_on fun n hn n' hn' heq => ?_
  have hname := htree.isName_of_mem_names (List.mem_of_mem_filter hn)
  have hname' := htree.isName_of_mem_names (List.mem_of_mem_filter hn')
  rw [Function.comp_apply, Function.comp_apply, Disk.entryOf_join hresolve hfolder hname,
    Disk.entryOf_join hresolve hfolder hname'] at heq
  simpa using heq

end

/-- A search begins with nothing found. -/
theorem Sound.start (disk : Disk) (settings : Settings) :
    Sound disk settings { pending := [settings.root] } where
  pending _ hp := .inl (List.mem_singleton.mp hp)
  visited _ hD := absurd hD List.not_mem_nil
  found _ hp := absurd hp List.not_mem_nil
  nodup := List.nodup_nil

section

variable (hroot : settings.root.raw ≠ []) (htree : disk.IsTree)

include hroot htree

/-- A trail leads to the next folder, if it was not searched before. -/
theorem Sound.exists_trail (h : Sound disk settings w) {folder : Path} (hfolder : folder ∈ w.pending)
    {l : Listing} (hlisting : disk.listing folder = .ok l) (hreal : l.real ∉ w.visited) :
    ∃ Ds, disk.Trail settings.root folder (l.real :: Ds) ∧ Ds ⊆ w.visited := by
  obtain ⟨hresolve, -, hisFolder, -⟩ := Disk.listing_eq_ok_iff.mp hlisting
  have hleads := Disk.leadsTo_of_resolve hresolve
  rcases h.pending folder hfolder with rfl | ⟨q, D, Ds, n, trail, hDs, hn, rfl⟩
  · exact ⟨[], .root hleads hisFolder, List.nil_subset _⟩
  · have hslash := (htree.isName_of_mem_names hn).slash_not_mem
    have hlead := (Disk.leadsTo_join (trail.ne_nil hroot) hslash (trail.leadsTo hroot htree)).mp hleads
    exact ⟨D :: Ds, .enter trail hn hlead hisFolder fun hmem => hreal (hDs hmem), hDs⟩

/-- **A step notes only what is there.** -/
theorem Sound.step (h : Sound disk settings w) (hstep : Step disk settings w w') :
    Sound disk settings w' := by
  cases hstep with
  | again hfolder hlisting hreal hvisited hfound =>
    refine ⟨fun p hp => ?_, hvisited ▸ h.visited, hfound ▸ hvisited ▸ h.found, hfound ▸ h.nodup⟩
    rw [hvisited]
    exact h.pending p (hfolder ▸ List.mem_cons_of_mem _ hp)
  | @search folder pending l hfolder hlisting hreal hseen hvisited hpending hfound =>
    obtain ⟨Ds, trail, hDs⟩ := h.exists_trail hroot htree (hfolder ▸ List.mem_cons_self) hlisting hreal
    have hmono : w.visited ⊆ w'.visited := hvisited ▸ List.subset_cons_self _ _
    have hmem : l.real ∈ w'.visited := hvisited ▸ List.mem_cons_self
    refine ⟨fun p hp => ?_, fun D hD => ?_, fun p hp => ?_, ?_⟩
    · rw [hpending, foldersOf_listing hlisting] at hp
      rcases List.mem_append.mp hp with hp | hp
      · obtain ⟨n, hn, rfl⟩ := List.mem_map.mp (List.mem_reverse.mp hp)
        exact .inr ⟨folder, l.real, Ds, n, trail,
          List.cons_subset.mpr ⟨hmem, List.Subset.trans hDs hmono⟩, List.mem_of_mem_filter hn, rfl⟩
      · rcases h.pending p (hfolder ▸ List.mem_cons_of_mem _ hp) with rfl | ⟨q, D, Ds, n, trail, hDs, hn, rfl⟩
        · exact .inl rfl
        · exact .inr ⟨q, D, Ds, n, trail, List.Subset.trans hDs hmono, hn, rfl⟩
    · rw [hvisited] at hD
      rcases List.mem_cons.mp hD with rfl | hD
      · exact ⟨folder, Ds, trail⟩
      · exact h.visited D hD
    · rw [hfound] at hp
      rcases List.mem_append.mp hp with hp | hp
      · obtain ⟨q, D, Ds, n, trail, hD, hfinds⟩ := h.found p hp
        exact ⟨q, D, Ds, n, trail, hmono hD, hfinds⟩
      · obtain ⟨n, hfinds⟩ := finds_of_mem_sheetsOf htree hlisting hp
        exact ⟨folder, l.real, Ds, n, trail, hmem, hfinds⟩
    · rw [hfound, List.map_append]
      refine List.nodup_append.mpr ⟨h.nodup, nodup_sheetsOf htree hlisting, ?_⟩
      -- what was found before lies in a folder searched before, and so not in this one
      intro e he e' he' heq
      obtain ⟨p, hp, rfl⟩ := List.mem_map.mp he
      obtain ⟨p', hp', rfl⟩ := List.mem_map.mp he'
      obtain ⟨q, D, Ds, m, -, hD, hfinds⟩ := h.found p hp
      obtain ⟨n, hfinds'⟩ := finds_of_mem_sheetsOf htree hlisting hp'
      rw [hfinds.entryOf htree, hfinds'.entryOf htree] at heq
      obtain ⟨rfl, -⟩ := List.append_inj' (Except.ok.inj heq) rfl
      exact hreal hD

end

end Walk

end BidiSheet
