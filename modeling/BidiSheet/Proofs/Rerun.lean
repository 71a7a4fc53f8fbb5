import BidiSheet.Proofs.Interleaving

/-!
# Running a batch again

After a batch has run, its outputs are among the files that a search passes. They are not taken for stylesheets,
because no output has the name of one. So a second batch finds the stylesheets of the first one again
(`convertTree_rerun`), and if it finds nothing else, it writes what is there already.

It may find more. A link that led nowhere before the first batch may lead to one of its outputs afterwards
(`Disk.Awaits`). If the link has the name of a stylesheet, the second batch takes the output for one
(`convertTree_revives_link`). If there is no such link, the second batch finds the same stylesheets and changes nothing.

The two searches go side by side (`Walk.Alike`). In each folder they pass the same folders in the same order, and
the stylesheets that the first one finds are those of the second one that are no links. This needs that the
names in a folder are listed in an order which goes by the names, because the path under which a folder is
searched depends on which way to it is met last.
-/

namespace BidiSheet

namespace Disk

/-! ### What is new can only be an output -/

namespace Extends

variable {disk disk' : Disk} (h : Extends disk disk')

include h

/-- What can be followed afterwards could be before, or ends in a file that is new. -/
theorem follow_or {links : Nat} {loc x : Location} {steps : List Bytes}
    (hfollow : disk'.follow links loc steps = .ok x) :
    disk.follow links loc steps = .ok x ∨ disk.node? x = none ∧ ∃ bytes, disk'.node? x = some (.file bytes) := by
  fun_induction Disk.follow disk' links loc steps with
  | case1 =>
    rw [Disk.follow]
    exact .inl hfollow
  | case2 => cases hfollow
  | case3 links loc step steps hfolder hidle ih =>
    rw [follow_idle (by simpa [h.isFolder_eq] using hfolder) hidle]
    exact ih hfollow
  | case4 links loc steps hfolder hidle ih =>
    rw [follow_up (by simpa [h.isFolder_eq] using hfolder)]
    exact ih hfollow
  | case5 => cases hfollow
  | case6 => cases hfollow
  | case7 => cases hfollow
  | case8 loc step steps hfolder hidle hup hsize target hnode links ih =>
    have hnode' : disk.node? (loc ++ [step]) = some (.link target) := by
      rcases h.node (loc ++ [step]) with heq | ⟨-, -, bytes, hfile⟩
      · rw [← heq, hnode]
      · rw [hfile] at hnode
        cases hnode
    rw [follow_link (by simpa [h.isFolder_eq] using hfolder) (by simpa using hidle) hup
      (Nat.not_lt.mp hsize) hnode']
    exact ih hfollow
  | case9 links loc step steps hfolder hidle hup hsize node hlink hnode ih =>
    have hfolder : disk.isFolder loc = true := by simpa [h.isFolder_eq] using hfolder
    rcases h.node (loc ++ [step]) with heq | ⟨hnotFolder, hnotLink, bytes, hfile⟩
    · rw [follow_enter hfolder (by simpa using hidle) hup (Nat.not_lt.mp hsize) (heq ▸ hnode) hlink]
      exact ih hfollow
    · cases hbefore : disk.node? (loc ++ [step]) with
      | none =>
        -- a file leads no further
        have hend : disk'.isFolder (loc ++ [step]) = false := (h.isFolder_eq _).trans hnotFolder
        cases steps with
        | nil =>
          rw [Disk.follow] at hfollow
          cases hfollow
          exact .inr ⟨hbefore, bytes, hfile⟩
        | cons next steps =>
          rw [Disk.follow, hend] at hfollow
          cases hfollow
      | some node' =>
        have hlink' : ∀ target, node' ≠ .link target := by
          rintro target rfl
          rw [isLink, hbefore] at hnotLink
          cases hnotLink
        rw [follow_enter hfolder (by simpa using hidle) hup (Nat.not_lt.mp hsize) hbefore hlink']
        exact ih hfollow

/-- What a path leads to afterwards it led to before, or it is a file that is new. -/
theorem resolve_or {path : Path} {x : Location} (hresolve : disk'.resolve path = .ok x) :
    disk.resolve path = .ok x ∨ disk.node? x = none ∧ ∃ bytes, disk'.node? x = some (.file bytes) := by
  rw [resolve_eq_ok_iff, h.home] at hresolve
  obtain ⟨hrefusal, htext, hfollow⟩ := hresolve
  exact (h.follow_or hfollow).imp_left fun hbefore => resolve_eq_ok_iff.mpr ⟨hrefusal, htext, hbefore⟩

end Extends

/-- A name that leads somewhere is a name in the folder. -/
theorem mem_names_of_leads {disk : Disk} {D x : Location} {n : Bytes} (hn : Path.IsName n)
    (h : disk.Leads D [n] x) : n ∈ disk.names D := by
  cases h with
  | idle _ hidle _ => exact absurd hidle (by simp [hn.not_isIdle])
  | up _ _ => exact absurd rfl hn.ne_up
  | enter _ _ _ hnode _ _ | link _ _ _ hnode _ => exact mem_names_iff.mpr ⟨_, hnode⟩


/-- A link in a folder that leads nowhere, but would lead to a place if there were a file. -/
structure Awaits (disk : Disk) (D : Location) (n : Bytes) (x : Location) : Prop where
  mem : n ∈ disk.names D
  isLink : disk.isLink (D ++ [n]) = true
  node : disk.node? x = none
  leads : (disk.put x (.file [])).Leads D [n] x

/-- A link with the name of a stylesheet, in a folder that can be reached from the root, leads nowhere but would lead to
the output of a stylesheet that is found. -/
def AwaitsOutput (disk : Disk) (settings : Settings) (found : List Path) : Prop :=
  ∃ top D n p o x, disk.LeadsTo settings.root top ∧ disk.Reaches top D ∧ settings.wants n = true ∧ p ∈ found ∧
    p.output? settings.suffix = some o ∧ disk.entryOf o = .ok x ∧ disk.Awaits D n x

/-- **A link that comes to life awaited the file** to which it leads now. -/
theorem Extends.awaits {disk disk' : Disk} (h : Extends disk disk') {folder : Path} {D x : Location} {n : Bytes}
    (hfolder : disk.resolve folder = .ok D) (hn : Path.IsName n) (hmem : n ∈ disk.names D)
    (hlink : disk.isLink (D ++ [n]) = true) (hnone : disk.node? x = none)
    (hx : disk'.resolve (folder.join n) = .ok x) {bytes : Bytes} (hfile : disk'.node? x = some (.file bytes)) :
    disk.Awaits D n x := by
  have hne : x ≠ [] := by
    rintro rfl
    cases hnone
  have hput : ∀ l, (disk.put x (.file [])).node? l = if l = x then some (.file []) else disk.node? l :=
    node?_put hne _
  have hmid : Extends disk (disk.put x (.file [])) := by
    refine ⟨home_put _ _, fun l => ?_⟩
    rw [hput]
    split
    · next heq => exact .inr ⟨by rw [heq, isFolder, hnone], by rw [heq, isLink, hnone], [], rfl⟩
    · exact .inl rfl
  have hlast : Extends (disk.put x (.file [])) disk' := by
    refine ⟨h.home.trans (home_put _ _).symm, fun l => ?_⟩
    rw [hmid.isFolder_eq, hmid.isLink_eq, hput]
    split
    · next heq => exact .inr ⟨by rw [heq, isFolder, hnone], by rw [heq, isLink, hnone], bytes, heq ▸ hfile⟩
    · exact h.node l
  have hresolve : (disk.put x (.file [])).resolve (folder.join n) = .ok x := by
    refine (hlast.resolve_or hx).resolve_right fun hnew => ?_
    rw [hput, if_pos rfl] at hnew
    cases hnew.1
  exact ⟨hmem, hlink, hnone, (leadsTo_join (resolve_eq_ok_iff.mp hfolder).2.1 hn.slash_not_mem
    (leadsTo_of_resolve (hmid.resolve hfolder))).mp (leadsTo_of_resolve hresolve)⟩

end Disk

/-! ### After a batch -/

/-- The disk after all jobs, its places listed in any order. -/
theorem Ran.of_relists {settings : Settings} {jobs : List Job} {disk mid later : Disk} (h : Ran settings jobs disk mid)
    (hlater : Disk.Relists later mid) : Ran settings jobs disk later := by
  have hagrees := hlater.agrees h.isTree_later
  refine ⟨h.isTree, hlater.isTree h.isTree_later, h.fits, ⟨⟨hagrees.home.trans h.grown.home, fun l => ?_⟩, fun l => ?_⟩,
    fun job hjob => ?_, fun l hl => ?_⟩
  · rw [hagrees.node?]
    exact h.grown.node l
  · rw [hagrees.node?]
    exact h.grown.outputPlace l
  · rw [hagrees.node?, h.written job hjob]
  · rw [hagrees.node?, h.kept l hl]

namespace Ran

variable {settings : Settings} {jobs : List Job} {disk later : Disk}

/-- **Jobs that have been done can be done again.** -/
theorem fits_later (h : Ran settings jobs disk later) : ∀ job ∈ jobs, job.Fits later settings := by
  intro job hjob
  have hfits := h.fits job hjob
  obtain ⟨x, hx, hfile⟩ := hfits.finds.resolve
  have hfinds : later.Finds settings job.input job.folder job.place job.name :=
    ⟨rfl, h.grown.resolve hfits.finds.resolve_folder, (h.grown.isFolder_eq _).trans hfits.finds.isFolder,
      h.grown.names_subset hfits.finds.mem, hfits.finds.wants, x, h.grown.resolve hx,
      (h.grown.isFolder_eq x).trans hfile⟩
  exact { hfits with
    finds := hfinds
    not_linkAt := by
      rw [Disk.linkAt_iff (hfinds.entryOf h.isTree_later), h.grown.isLink_eq,
        ← Disk.linkAt_iff (hfits.finds.entryOf h.isTree)]
      exact hfits.not_linkAt
    readText := hfits.readText_eq h.isTree h.grown
    isFolder := (h.grown.isFolder_eq _).trans hfits.isFolder
    isLink := (h.grown.isLink_eq _).trans hfits.isLink }

/-- **Doing the jobs once more changes nothing**, under every schedule. -/
theorem convertTree_later (h : Ran settings jobs disk later) (hnodup : (jobs.map Job.target).Nodup)
    (hfound : (discover later settings).result = .ok (jobs.map Job.input)) (schedule : Schedule) :
    (convertTree schedule settings later).1.result = .ok ⟨jobs.map Job.report⟩ ∧
      (convertTree schedule settings later).2 = later := by
  obtain ⟨hresult, hran, hlisted⟩ := convertTree_of_fits h.isTree_later h.fits_later hnodup hfound schedule
  refine ⟨hresult,
    Disk.Agrees.eq ⟨hran.grown.home, fun l => ?_⟩ h.isTree_later hran.isTree_later (hlisted fun l hl => ?_)⟩
  · by_cases hl : l ∈ jobs.map Job.target
    · obtain ⟨job, hjob, rfl⟩ := List.mem_map.mp hl
      rw [hran.written job hjob, h.written job hjob]
    · exact hran.kept l hl
  · obtain ⟨job, hjob, rfl⟩ := List.mem_map.mp hl
    exact List.mem_map_of_mem (Disk.mem_of_node? job.target_ne_nil (h.written job hjob))

variable (h : Ran settings jobs disk later) {folder : Path} {D : Location}
  (hresolve : disk.resolve folder = .ok D) {n : Bytes}

include h hresolve

/-- The folders in a folder are the same as before. -/
theorem folder_iff :
    (n ∈ later.names D ∧ later.status (D ++ [n]) (folder.join n) = .folder) ↔
      n ∈ disk.names D ∧ disk.status (D ++ [n]) (folder.join n) = .folder := by
  rw [Disk.status_eq_folder_iff, Disk.status_eq_folder_iff]
  constructor
  · rintro ⟨hn, x, hx, hfolder⟩
    have hname := h.isTree_later.isName_of_mem_names hn
    rcases h.grown.resolve_or hx with hbefore | ⟨-, bytes, hfile⟩
    · have hleads := (Disk.leadsTo_join (Disk.resolve_eq_ok_iff.mp hresolve).2.1 hname.slash_not_mem
        (Disk.leadsTo_of_resolve hresolve)).mp (Disk.leadsTo_of_resolve hbefore)
      exact ⟨Disk.mem_names_of_leads hname hleads, x, hbefore, (h.grown.isFolder_eq x).symm.trans hfolder⟩
    · rw [Disk.isFolder, hfile] at hfolder
      cases hfolder
  · rintro ⟨hn, x, hx, hfolder⟩
    exact ⟨h.grown.names_subset hn, x, h.grown.resolve hx, (h.grown.isFolder_eq x).trans hfolder⟩

variable (hD : disk.isFolder D = true)

include hD

/-- A name in a folder is that of a link if it was before. -/
theorem linkAt_iff (hn : n ∈ later.names D) :
    later.LinkAt (folder.join n) ↔ disk.isLink (D ++ [n]) = true := by
  have hfolder : later.isFolder D = true := (h.grown.isFolder_eq D).trans hD
  rw [Disk.linkAt_iff (Disk.entryOf_join (h.grown.resolve hresolve) hfolder
    (h.isTree_later.isName_of_mem_names hn)), h.grown.isLink_eq]

/-- The stylesheets in a folder that are no links are the same as before. -/
theorem sheet_iff (hlinks : n ∈ disk.names D → disk.status (D ++ [n]) (folder.join n) = .file →
      settings.wants n = true → ¬ disk.LinkAt (folder.join n)) :
    (n ∈ later.names D ∧ (later.status (D ++ [n]) (folder.join n) = .file ∧ settings.wants n = true) ∧
        ¬ later.LinkAt (folder.join n)) ↔
      n ∈ disk.names D ∧ disk.status (D ++ [n]) (folder.join n) = .file ∧ settings.wants n = true := by
  have hfolder : later.isFolder D = true := (h.grown.isFolder_eq D).trans hD
  constructor
  · rintro ⟨hn, ⟨hstatus, hwants⟩, hlink⟩
    have hfinds : later.Finds settings (folder.join n) folder D n :=
      ⟨rfl, h.grown.resolve hresolve, hfolder, hn, hwants, Disk.status_eq_file_iff.mp hstatus⟩
    have hplace := hfinds.resolve_eq h.isTree_later hlink
    have hnode := h.grown.node?_eq (settings.not_outputPlace (D := D) hwants)
    obtain ⟨node, hsome⟩ := Disk.mem_names_iff.mp hn
    have hbefore := (h.grown.resolve_or hplace).resolve_right fun hnone => by
      rw [hnode, hnone.1] at hsome
      cases hsome
    obtain ⟨x, hx, hfile⟩ := hfinds.resolve
    obtain rfl : x = D ++ [n] := Except.ok.inj (hx.symm.trans hplace)
    refine ⟨Disk.mem_names_iff.mpr ⟨node, hnode.symm.trans hsome⟩, ?_, hwants⟩
    exact Disk.status_eq_file_iff.mpr ⟨_, hbefore, (h.grown.isFolder_eq _).symm.trans hfile⟩
  · rintro ⟨hn, hstatus, hwants⟩
    obtain ⟨x, hx, hfile⟩ := Disk.status_eq_file_iff.mp hstatus
    have hn' := h.grown.names_subset hn
    refine ⟨hn', ⟨Disk.status_eq_file_iff.mpr ⟨x, h.grown.resolve hx, ?_⟩, hwants⟩, ?_⟩
    · exact (h.grown.isFolder_eq x).trans hfile
    · have hentry := Disk.entryOf_join hresolve hD (h.isTree.isName_of_mem_names hn)
      rw [h.linkAt_iff hresolve hD hn', ← Disk.linkAt_iff hentry]
      exact hlinks hn hstatus hwants

/-- **A link that is taken for a stylesheet awaited an output**, if none was taken for one before. -/
theorem exists_awaits (hlinks : n ∈ disk.names D → disk.status (D ++ [n]) (folder.join n) = .file →
      settings.wants n = true → ¬ disk.LinkAt (folder.join n)) (hn : n ∈ later.names D)
    (hstatus : later.status (D ++ [n]) (folder.join n) = .file) (hwants : settings.wants n = true)
    (hlink : later.LinkAt (folder.join n)) : ∃ job ∈ jobs, disk.Awaits D n job.target := by
  have hname := h.isTree_later.isName_of_mem_names hn
  have hbefore : disk.isLink (D ++ [n]) = true := (h.linkAt_iff hresolve hD hn).mp hlink
  have hmem : n ∈ disk.names D := by
    unfold Disk.isLink at hbefore
    split at hbefore
    · next hnode => exact Disk.mem_names_iff.mpr ⟨_, hnode⟩
    · cases hbefore
  obtain ⟨x, hx, hfile⟩ := Disk.status_eq_file_iff.mp hstatus
  rcases h.grown.resolve_or hx with hold | ⟨hnone, bytes, hnew⟩
  · -- then the link led there before, and was a stylesheet
    have hstatus' : disk.status (D ++ [n]) (folder.join n) = .file :=
      Disk.status_eq_file_iff.mpr ⟨x, hold, (h.grown.isFolder_eq x).symm.trans hfile⟩
    exact absurd ((Disk.linkAt_iff (Disk.entryOf_join hresolve hD hname)).mpr hbefore) (hlinks hmem hstatus' hwants)
  · have htarget : x ∈ jobs.map Job.target := by
      by_contra hkept
      rw [h.kept x hkept, hnone] at hnew
      cases hnew
    obtain ⟨job, hjob, rfl⟩ := List.mem_map.mp htarget
    exact ⟨job, hjob, h.grown.awaits hresolve hname hmem hbefore hnone hx hnew⟩

/-- Every name in a folder can be looked at, if those before could be and the paths of new outputs are not too
long. -/
theorem isSeen_later (haccepted : ∀ job ∈ jobs, job.place = D → Disk.refusal? (folder.join job.outName) = none)
    (hseen : ∀ n ∈ disk.names D, Walk.isSeen (n, disk.status (D ++ [n]) (folder.join n)) = true)
    (hn : n ∈ later.names D) : Walk.isSeen (n, later.status (D ++ [n]) (folder.join n)) = true := by
  rw [Walk.isSeen_status_iff]
  by_cases hold : n ∈ disk.names D
  · rcases Walk.isSeen_status_iff.mp (hseen n hold) with ⟨x, hx⟩ | ⟨hrefusal, hlink⟩
    · exact .inl ⟨x, h.grown.resolve hx⟩
    · exact .inr ⟨hrefusal, (h.grown.isLink_eq _).trans hlink⟩
  · -- a new name is that of an output
    have htarget : D ++ [n] ∈ jobs.map Job.target := by
      by_contra hkept
      obtain ⟨node, hnode⟩ := Disk.mem_names_iff.mp hn
      exact hold (Disk.mem_names_iff.mpr ⟨node, (h.kept _ hkept).symm.trans hnode⟩)
    obtain ⟨job, hjob, htarget⟩ := List.mem_map.mp htarget
    obtain ⟨rfl, hname⟩ := List.append_inj' htarget rfl
    obtain rfl := List.singleton_inj.mp hname
    have hfits := h.fits job hjob
    have hfolder : later.isFolder job.place = true := (h.grown.isFolder_eq _).trans hD
    exact .inl ⟨_, Disk.resolve_join (h.grown.resolve hresolve) hfolder hfits.isName hfits.size
      (haccepted job hjob rfl) (h.written job hjob) (by simp)⟩

end Ran

/-! ### Two searches side by side -/

/-- Two lists in one order are equal once what sets them apart is left out. -/
theorem filter_eq_filter_of_pairwise {r : Bytes → Bytes → Prop} (hr : ∀ a b, r a b → ¬ r b a) {xs ys : List Bytes}
    (hx : xs.Pairwise r) (hy : ys.Pairwise r) {P Q : Bytes → Bool}
    (h : ∀ n, n ∈ xs ∧ P n = true ↔ n ∈ ys ∧ Q n = true) : xs.filter P = ys.filter Q := by
  have hnodup : ∀ {zs : List Bytes}, zs.Pairwise r → zs.Nodup := by
    intro zs hz
    refine hz.imp fun {a b} hab heq => ?_
    subst heq
    exact hr a a hab hab
  have hperm : (xs.filter P).Perm (ys.filter Q) := by
    refine (List.perm_ext_iff_of_nodup ((hnodup hx).filter P) ((hnodup hy).filter Q)).mpr fun n => ?_
    rw [List.mem_filter, List.mem_filter, h]
  exact hperm.eq_of_pairwise (fun a b _ _ hab hba => absurd hba (hr a b hab)) (hx.filter P) (hy.filter Q)

namespace Walk

variable {settings : Settings} {jobs : List Job} {disk later : Disk} {w w' w'' : Walk}

/-- What has been found stays found. -/
theorem found_subset_run (h : (run disk settings w).stop = none) : w.found ⊆ (run disk settings w).found := by
  intro p hp
  refine run_preserves (P := fun v => p ∈ v.found) (fun v v' hv hstep => ?_) h hp
  cases hstep with
  | again _ _ _ _ hfound => exact hfound ▸ hv
  | search _ _ _ _ _ _ hfound => exact hfound ▸ List.mem_append_left _ hv

/-- The search before a batch, at its end. The paths of new outputs are not too long for a second search: the root has
no idle steps at its end, without which outputs are written, or the paths of stylesheets leave room for the suffix. -/
structure Searched (disk : Disk) (settings : Settings) (jobs : List Job) (final : Walk) : Prop where
  stop : final.stop = none
  nodup : (final.found.map disk.entryOf).Nodup
  not_linkAt : ∀ p ∈ final.found, ¬ disk.LinkAt p
  input_mem : ∀ job ∈ jobs, job.input ∈ final.found
  root_ne_nil : settings.root.raw ≠ []
  room : (∀ n, settings.root.trimmed.join n = settings.root.join n) ∨
    ∀ p ∈ final.found, p.raw.length + byteSize settings.suffix ≤ Disk.pathLimit

open Classical in
/-- A search before a batch, on its way to its end, and one after it that has come as far. The second one has found the
same, and links that have come to life. -/
structure Alike (disk later : Disk) (settings : Settings) (jobs : List Job) (final w w' : Walk) : Prop where
  outcome : run disk settings w = final
  sound : Sound disk settings w
  pending : w'.pending = w.pending
  visited : w'.visited = w.visited
  found : w.found = w'.found.filter fun p => ¬ later.LinkAt p
  revived : ∀ p ∈ w'.found, later.LinkAt p → ∃ D ∈ w.visited, ∃ n, settings.wants n = true ∧
    ∃ job ∈ jobs, disk.Awaits D n job.target

section

variable (hran : Ran settings jobs disk later)

include hran

/-- A stylesheet that has a job is noted when its folder is searched. -/
theorem mem_sheetsOf_of_job {folder : Path} {l : Listing} (hlisting : disk.listing folder = .ok l)
    (hseen : l.entries.all isSeen = true) {job : Job} (hjob : job ∈ jobs) (hplace : job.place = l.real) :
    folder.join job.name ∈ sheetsOf settings folder l.entries := by
  obtain ⟨hresolve, -, hD, hentries⟩ := Disk.listing_eq_ok_iff.mp hlisting
  have hfits := hran.fits job hjob
  have hmem : job.name ∈ disk.names l.real := hplace ▸ hfits.finds.mem
  have hname := hran.isTree.isName_of_mem_names hmem
  have hlink : disk.isLink (l.real ++ [job.name]) ≠ true := fun hlink =>
    hfits.not_linkAt ((Disk.linkAt_iff (hfits.finds.entryOf hran.isTree)).mpr (hplace ▸ hlink))
  obtain ⟨x, hx⟩ : ∃ x, disk.resolve (folder.join job.name) = .ok x := by
    have hall := List.all_eq_true.mp hseen (job.name, disk.status (l.real ++ [job.name]) (folder.join job.name))
      (hentries ▸ List.mem_map_of_mem hmem)
    exact (isSeen_status_iff.mp hall).resolve_right fun hright => hlink hright.2
  have hfile : disk.isFolder x = false := by
    obtain ⟨y, -, hlead, hfile⟩ := hfits.finds.exists_leads hran.isTree
    have hleads := (Disk.leadsTo_join (Disk.resolve_eq_ok_iff.mp hresolve).2.1 hname.slash_not_mem
      (Disk.leadsTo_of_resolve hresolve)).mp (Disk.leadsTo_of_resolve hx)
    rw [hplace] at hlead
    rwa [hleads.unique hlead]
  rw [sheetsOf_listing hlisting hran.isTree]
  refine List.mem_map_of_mem (List.mem_filter.mpr ⟨hmem, ?_⟩)
  rw [Bool.and_eq_true, decide_eq_true_eq]
  exact ⟨Disk.status_eq_file_iff.mpr ⟨x, hx, hfile⟩, hfits.finds.wants⟩

/-- **An output can be looked at** under the path by which its folder is searched. -/
theorem refusal?_output {final : Walk} (hsearched : Searched disk settings jobs final) (hsound : Sound disk settings w)
    {folder : Path} (hfolder : folder ∈ w.pending) {l : Listing} (hlisting : disk.listing folder = .ok l)
    (hseen : l.entries.all isSeen = true) (hsub : sheetsOf settings folder l.entries ⊆ final.found) {job : Job}
    (hjob : job ∈ jobs) (hplace : job.place = l.real) : Disk.refusal? (folder.join job.outName) = none := by
  obtain ⟨hresolve, -, hD, -⟩ := Disk.listing_eq_ok_iff.mp hlisting
  have hfits := hran.fits job hjob
  have hname := hran.isTree.isName_of_mem_names hfits.finds.mem
  have hmem := hsub (mem_sheetsOf_of_job hran hlisting hseen hjob hplace)
  have hq := (Disk.resolve_eq_ok_iff.mp hresolve).2.1
  have hq' := (Disk.resolve_eq_ok_iff.mp hfits.finds.resolve_folder).2.1
  -- the stylesheet is found only once, so its job has it in this folder
  have hinput : folder.join job.name = job.folder.join job.name := by
    refine List.inj_on_of_nodup_map hsearched.nodup hmem (hsearched.input_mem job hjob) ?_
    rw [Disk.entryOf_join hresolve hD hname, ← hplace]
    exact (hfits.finds.entryOf hran.isTree).symm
  have htrimmed : folder.trimmed = job.folder.trimmed := Path.trimmed_eq_of_join_eq hq hq' hname.isEntry hinput
  have haccepted : Disk.refusal? (folder.trimmed.join job.outName) = none := htrimmed ▸ hfits.accepted
  rcases hsound.pending folder hfolder with rfl | ⟨q, D, Ds, n, trail, -, hn, rfl⟩
  · rcases hsearched.room with htidy | hsize
    · rwa [htidy] at haccepted
    · have hsize := hsize _ hmem
      rw [Path.length_join] at hsize
      refine Disk.refusal?_eq_none_iff.mpr ⟨fun hnul => ?_, ?_⟩
      · rcases Path.mem_of_mem_join hnul with hnul | hnul | hnul
        · exact (Disk.refusal?_eq_none_iff.mp (Disk.resolve_eq_ok_iff.mp hresolve).1).1 hnul
        · cases hnul
        · exact hfits.isName.nul_not_mem hnul
      · rw [Path.length_join, Path.length_outputName hfits.finds.wants hfits.outName]
        omega
  · -- a folder below the root is searched under a path that ends in its name
    have hentry := (hran.isTree.isName_of_mem_names hn).isEntry
    rwa [Path.trimmed_join (trail.ne_nil hsearched.root_ne_nil) hentry] at haccepted

/-- A folder that could be listed still can be. -/
theorem exists_listing_later {folder : Path} {l : Listing} (hlisting : disk.listing folder = .ok l) :
    ∃ l', later.listing folder = .ok l' ∧ l'.real = l.real := by
  obtain ⟨hresolve, hextent, hfolder, -⟩ := Disk.listing_eq_ok_iff.mp hlisting
  refine ⟨⟨l.real, (later.names l.real).map fun n => (n, later.status (l.real ++ [n]) (folder.join n))⟩,
    Disk.listing_eq_ok_iff.mpr ⟨hran.grown.resolve hresolve, hextent, ?_, rfl⟩, rfl⟩
  exact (hran.grown.isFolder_eq _).trans hfolder

/-- A folder is listed under the same place. -/
theorem real_later {folder : Path} {l l' : Listing} (hlisting : disk.listing folder = .ok l)
    (hlisting' : later.listing folder = .ok l') : l'.real = l.real := by
  obtain ⟨l'', hlisting'', heq⟩ := exists_listing_later hran hlisting
  rw [hlisting'] at hlisting''
  cases hlisting''
  exact heq

/-- **A link that is noted awaited an output.** -/
theorem exists_awaits_of_mem_sheetsOf {folder : Path} {l l' : Listing} (hlisting : disk.listing folder = .ok l)
    (hlisting' : later.listing folder = .ok l') (hlinks : ∀ p ∈ sheetsOf settings folder l.entries, ¬ disk.LinkAt p)
    {p : Path} (hp : p ∈ sheetsOf settings folder l'.entries) (hlink : later.LinkAt p) :
    ∃ n, settings.wants n = true ∧ ∃ job ∈ jobs, disk.Awaits l.real n job.target := by
  obtain ⟨hresolve, -, hD, -⟩ := Disk.listing_eq_ok_iff.mp hlisting
  rw [sheetsOf_listing hlisting hran.isTree] at hlinks
  rw [sheetsOf_listing hlisting' hran.isTree_later, real_later hran hlisting hlisting'] at hp
  obtain ⟨n, hn, rfl⟩ := List.mem_map.mp hp
  rw [List.mem_filter, Bool.and_eq_true, decide_eq_true_eq] at hn
  obtain ⟨hmem, hstatus, hwants⟩ := hn
  refine ⟨n, hwants, hran.exists_awaits hresolve hD (fun hn hfile hwants => ?_) hmem hstatus hwants hlink⟩
  exact hlinks _ (List.mem_map_of_mem (List.mem_filter.mpr ⟨hn, by simp [hfile, hwants]⟩))

variable {order : Location → Bytes → Bytes → Prop} (hasymm : ∀ D a b, order D a b → ¬ order D b a)
  (hnames : ∀ D, (disk.names D).Pairwise (order D)) (hnames' : ∀ D, (later.names D).Pairwise (order D))
  {folder : Path} {l l' : Listing} (hlisting : disk.listing folder = .ok l)
  (hlisting' : later.listing folder = .ok l')

include hasymm hnames hnames' hlisting hlisting'

/-- **The same folders are noted, in the same order.** -/
theorem foldersOf_later : foldersOf folder l'.entries = foldersOf folder l.entries := by
  obtain ⟨hresolve, -⟩ := Disk.listing_eq_ok_iff.mp hlisting
  rw [foldersOf_listing hlisting, foldersOf_listing hlisting', real_later hran hlisting hlisting']
  refine congrArg (fun ns : List Bytes => (ns.map folder.join).reverse) ?_
  refine filter_eq_filter_of_pairwise (hasymm l.real) (hnames' _) (hnames _) fun n => ?_
  rw [decide_eq_true_eq, decide_eq_true_eq]
  exact hran.folder_iff hresolve

open Classical in
/-- **The same stylesheets are noted**, besides links. -/
theorem sheetsOf_later
    (hlinks : ∀ p ∈ sheetsOf settings folder l.entries, ¬ disk.LinkAt p) :
    (sheetsOf settings folder l'.entries).filter (fun p => ¬ later.LinkAt p)
      = sheetsOf settings folder l.entries := by
  obtain ⟨hresolve, -, hD, -⟩ := Disk.listing_eq_ok_iff.mp hlisting
  rw [sheetsOf_listing hlisting hran.isTree] at hlinks ⊢
  rw [sheetsOf_listing hlisting' hran.isTree_later, real_later hran hlisting hlisting', List.filter_map,
    List.filter_filter]
  refine congrArg (List.map folder.join) ?_
  refine filter_eq_filter_of_pairwise (hasymm l.real) (hnames' _) (hnames _) fun n => ?_
  have hiff := hran.sheet_iff hresolve hD (n := n) fun hn hstatus hwants =>
    hlinks _ (List.mem_map_of_mem (List.mem_filter.mpr ⟨hn, by simp [hstatus, hwants]⟩))
  simpa [and_comm, and_assoc, and_left_comm] using hiff

end

variable {final : Walk} (hsearched : Searched disk settings jobs final)

include hsearched

/-- The first search goes on, and what it notes is found in the end. -/
theorem Alike.exists_step (h : Alike disk later settings jobs final w w') {folder : Path} {pending : List Path}
    (hpending : w'.pending = folder :: pending) :
    ∃ v, Step disk settings w v ∧ run disk settings v = final ∧ v.found ⊆ final.found := by
  have hw : (run disk settings w).stop = none := h.outcome ▸ hsearched.stop
  obtain ⟨l, hlisting, hv, hrun⟩ := run_of_pending hw (h.pending ▸ hpending)
  have hfinal := hrun.symm.trans h.outcome
  refine ⟨_, step_enter (run_steps hw).1 (h.pending ▸ hpending) hlisting hv, hfinal, ?_⟩
  exact hfinal ▸ found_subset_run (hrun ▸ hw)

variable (hran : Ran settings jobs disk later)

include hran

/-- **The second search goes on too.** -/
theorem Alike.exists_listing (h : Alike disk later settings jobs final w w') {folder : Path} {pending : List Path}
    (hpending : w'.pending = folder :: pending) :
    ∃ l', later.listing folder = .ok l' ∧ (l'.real ∈ w'.visited ∨ l'.entries.all isSeen = true) := by
  obtain ⟨v, hstep, -, hsub⟩ := h.exists_step hsearched hpending
  have hfolder' : folder ∈ w.pending := h.pending ▸ hpending ▸ List.mem_cons_self
  cases hstep with
  | again hfolder hlisting hreal =>
    rw [← h.pending, hpending] at hfolder
    cases hfolder
    obtain ⟨l', hlisting', heq⟩ := exists_listing_later hran hlisting
    exact ⟨l', hlisting', .inl (h.visited ▸ heq ▸ hreal)⟩
  | @search _ _ l hfolder hlisting hreal hseen hvisited hpend hfound =>
    rw [← h.pending, hpending] at hfolder
    cases hfolder
    obtain ⟨l', hlisting', heq⟩ := exists_listing_later hran hlisting
    obtain ⟨hresolve, -, hD, hentries⟩ := Disk.listing_eq_ok_iff.mp hlisting
    obtain ⟨-, -, -, hentries'⟩ := Disk.listing_eq_ok_iff.mp hlisting'
    have hseen' := hseen
    rw [hentries, List.all_map, List.all_eq_true] at hseen'
    refine ⟨l', hlisting', .inr ?_⟩
    rw [hentries', heq, List.all_map, List.all_eq_true]
    refine fun n hn => hran.isSeen_later hresolve hD (fun job hjob hplace => ?_) hseen' hn
    refine refusal?_output hran hsearched h.sound hfolder' hlisting hseen (fun p hp => hsub ?_) hjob hplace
    exact hfound ▸ List.mem_append_right _ hp

variable {order : Location → Bytes → Bytes → Prop} (hasymm : ∀ D a b, order D a b → ¬ order D b a)
  (hnames : ∀ D, (disk.names D).Pairwise (order D)) (hnames' : ∀ D, (later.names D).Pairwise (order D))

include hasymm hnames hnames'

/-- **A step of the second search is one of the first.** -/
theorem Alike.step (h : Alike disk later settings jobs final w w') (hstep : Step later settings w' w'') :
    ∃ v, Alike disk later settings jobs final v w'' := by
  cases hstep with
  | @again folder l' hfolder' hlisting' hreal' hvisited' hfound' =>
    obtain ⟨v, hfirst, hv, -⟩ := h.exists_step hsearched hfolder'
    have hsound := h.sound.step hsearched.root_ne_nil hran.isTree hfirst
    cases hfirst with
    | again hfolder hlisting hreal hvisited hfound =>
      rw [← h.pending, hfolder'] at hfolder
      refine ⟨v, hv, hsound, (List.cons.inj hfolder).2, ?_, ?_, ?_⟩
      · rw [hvisited', hvisited, h.visited]
      · rw [hfound, hfound', h.found]
      · rw [hfound', hvisited]
        exact h.revived
    | search hfolder hlisting hreal =>
      rw [← h.pending, hfolder'] at hfolder
      cases hfolder
      exact absurd (h.visited ▸ real_later hran hlisting hlisting' ▸ hreal') hreal
  | @search folder pending l' hfolder' hlisting' hreal' hseen' hvisited' hpending' hfound' =>
    obtain ⟨v, hfirst, hv, hsub⟩ := h.exists_step hsearched hfolder'
    have hsound := h.sound.step hsearched.root_ne_nil hran.isTree hfirst
    cases hfirst with
    | again hfolder hlisting hreal =>
      rw [← h.pending, hfolder'] at hfolder
      cases hfolder
      exact absurd (h.visited.symm ▸ (real_later hran hlisting hlisting').symm ▸ hreal) hreal'
    | @search _ _ l hfolder hlisting hreal hseen hvisited hpending hfound =>
      rw [← h.pending, hfolder'] at hfolder
      cases hfolder
      have heq := real_later hran hlisting hlisting'
      have hlinks : ∀ p ∈ sheetsOf settings folder l.entries, ¬ disk.LinkAt p := fun p hp =>
        hsearched.not_linkAt p (hsub (hfound ▸ List.mem_append_right _ hp))
      refine ⟨v, hv, hsound, ?_, ?_, ?_, fun p hp hlink => ?_⟩
      · rw [hpending', hpending, foldersOf_later hran hasymm hnames hnames' hlisting hlisting']
      · rw [hvisited', hvisited, heq, h.visited]
      · rw [hfound, hfound', List.filter_append, ← h.found,
          sheetsOf_later hran hasymm hnames hnames' hlisting hlisting' hlinks]
      · rw [hvisited]
        rcases List.mem_append.mp (hfound' ▸ hp) with hp | hp
        · obtain ⟨D, hD, hrest⟩ := h.revived p hp hlink
          exact ⟨D, List.mem_cons_of_mem _ hD, hrest⟩
        · exact ⟨l.real, List.mem_cons_self, exists_awaits_of_mem_sheetsOf hran hlisting hlisting' hlinks hp hlink⟩

open Classical in
/-- **The second search finds the same**, and links that awaited an output. -/
theorem run_later (hfinal : run disk settings (.start settings) = final) :
    ∃ w', run later settings (.start settings) = w' ∧ w'.stop = none ∧
      final.found = w'.found.filter (fun p => ¬ later.LinkAt p) ∧
      ∀ p ∈ w'.found, later.LinkAt p → ∃ D ∈ final.visited, ∃ n, settings.wants n = true ∧
        ∃ job ∈ jobs, disk.Awaits D n job.target := by
  have hstart : Alike disk later settings jobs final (.start settings) (.start settings) :=
    ⟨hfinal, .start disk settings, rfl, rfl, rfl, fun p hp => absurd hp List.not_mem_nil⟩
  have hstep : ∀ w' w'', (∃ w, Alike disk later settings jobs final w w') → Step later settings w' w'' →
      ∃ v, Alike disk later settings jobs final v w'' := by
    rintro w' w'' ⟨w, h⟩ hstep
    exact h.step hsearched hran hasymm hnames hnames' hstep
  have hgoes : (run later settings (.start settings)).stop = none := by
    refine stop_run hstep (fun w' folder pending => ?_) rfl ⟨_, hstart⟩
    rintro ⟨w, h⟩ hpending
    exact h.exists_listing hsearched hran hpending
  obtain ⟨v, hv⟩ := run_preserves hstep hgoes ⟨_, hstart⟩
  -- nothing is pending any more, so the first search is over as well
  have hnext : v.next? = none := by
    rw [next?, ← hv.pending, (run_steps hgoes).2.1]
    exact ite_self _
  have hlast : v = final := by
    rw [← hv.outcome, run_of_next?_eq_none hnext]
  exact ⟨_, rfl, hgoes, hlast ▸ hv.found, hlast ▸ hv.revived⟩

end Walk

/-- **A search fails on a name that cannot be looked at.** So the second batch may fail where an output is written under
a path that is shorter than the one under which the root's folder is searched. -/
theorem discover_ne_ok_of_refusal {disk : Disk} {settings : Settings} {top : Location} {n : Bytes} {fault : DiskFault}
    (htop : disk.resolve settings.root = .ok top) (hn : n ∈ disk.names top)
    (hrefusal : Disk.refusal? (settings.root.join n) = some fault) (found : List Path) :
    (discover disk settings).result ≠ .ok found := by
  intro h
  obtain ⟨hstop, -⟩ := discover_eq_ok_iff.mp h
  obtain ⟨l, hlisting, henter, -⟩ := Walk.run_of_pending hstop rfl
  obtain ⟨hresolve, -, -, hentries⟩ := Disk.listing_eq_ok_iff.mp hlisting
  obtain rfl : top = l.real := Except.ok.inj (htop.symm.trans hresolve)
  have hseen := ((Walk.stop_enter rfl settings settings.root []).mp henter).resolve_left List.not_mem_nil
  rw [hentries, List.all_map, List.all_eq_true] at hseen
  rcases Walk.isSeen_status_iff.mp (hseen n hn) with ⟨x, hx⟩ | ⟨hnone, -⟩
  · rw [(Disk.resolve_eq_ok_iff.mp hx).1] at hrefusal
    cases hrefusal
  · rw [hnone] at hrefusal
    cases hrefusal

/-! ### The second batch -/

/-- **Running a batch again finds the same stylesheets**, and besides them only links. If no link that led nowhere
awaited an output, it finds nothing else, gives the same reports and leaves the disk as it is, whatever the schedules
are. The disk may list its places in another order than the first batch left them in, provided that names in a folder
are listed in an order that goes by the names. An output is looked at under the root as it is given but written
without idle steps at its end, so that the root has none, or the paths of the stylesheets leave room for the suffix.
-/
theorem convertTree_rerun {disk later : Disk} {settings : Settings} {found : List Path} {summary : Summary}
    {schedule : Schedule} {order : Location → Bytes → Bytes → Prop} (htree : disk.IsTree)
    (hsuffix : settings.suffix ≠ []) (hslash : '/' ∉ settings.suffix)
    (hfound : (discover disk settings).result = .ok found) (hinputs : ∀ p ∈ found, ¬ disk.LinkAt p)
    (houtputs : ∀ p ∈ found, ∀ o, p.output? settings.suffix = some o → ¬ disk.LinkAt o)
    (hroom : (∀ n, settings.root.trimmed.join n = settings.root.join n) ∨
      ∀ p ∈ found, p.raw.length + byteSize settings.suffix ≤ Disk.pathLimit)
    (hok : (convertTree schedule settings disk).1.result = .ok summary)
    (hlater : Disk.Relists later (convertTree schedule settings disk).2)
    (hasymm : ∀ D a b, order D a b → ¬ order D b a) (hnames : ∀ D, (disk.names D).Pairwise (order D))
    (hnames' : ∀ D, (later.names D).Pairwise (order D)) :
    ∃ found', (discover later settings).result = .ok found' ∧
      (∀ p, p ∈ found ↔ p ∈ found' ∧ ¬ later.LinkAt p) ∧
      (¬ disk.AwaitsOutput settings found → found' = found ∧
        ∀ schedule', (convertTree schedule' settings later).1.result = .ok summary ∧
          (convertTree schedule' settings later).2 = later) := by
  classical
  obtain ⟨jobs, hmap, hreports, hjobs, hnodup, hdone⟩ :=
    exists_jobs_of_convertTree htree hsuffix hslash hfound hinputs houtputs hok
  have hran : Ran settings jobs disk later := (hdone schedule).2.of_relists hlater
  obtain ⟨hstop, hsort⟩ := discover_eq_ok_iff.mp hfound
  have hmem : ∀ p, p ∈ (Walk.run disk settings (.start settings)).found ↔ p ∈ found := by
    intro p
    rw [← hsort, List.mem_mergeSort]
  have hsound := Walk.sound_run htree hstop
  have hsearched : Walk.Searched disk settings jobs (Walk.run disk settings (.start settings)) :=
    { stop := hstop
      nodup := hsound.nodup
      not_linkAt := fun p hp => hinputs p ((hmem p).mp hp)
      input_mem := fun job hjob => (hmem _).mpr (hmap ▸ List.mem_map_of_mem hjob)
      root_ne_nil := Walk.root_ne_nil hstop
      room := hroom.imp_right fun hsize p hp => hsize p ((hmem p).mp hp) }
  obtain ⟨w', hrun, hstop', hsearch, hrevived⟩ := Walk.run_later hsearched hran hasymm hnames hnames' rfl
  have hfound' : (discover later settings).result = .ok (w'.found.mergeSort Path.le) :=
    discover_eq_ok_iff.mpr ⟨hrun ▸ hstop', by rw [hrun]⟩
  refine ⟨_, hfound', fun p => ?_, fun hawaits => ?_⟩
  · rw [List.mem_mergeSort, ← hmem, hsearch, List.mem_filter, decide_eq_true_eq]
  · have hnone : ∀ p ∈ w'.found, ¬ later.LinkAt p := by
      intro p hp hlink
      obtain ⟨D, hD, n, hwants, job, hjob, hlinked⟩ := hrevived p hp hlink
      obtain ⟨l, hlisting, -⟩ := Walk.run_of_pending hstop rfl
      have htop := Disk.leadsTo_of_resolve (Disk.listing_eq_ok_iff.mp hlisting).1
      obtain ⟨q, Ds, trail⟩ := hsound.visited D hD
      exact hawaits ⟨l.real, D, n, job.input, job.output, job.target, htop, trail.reaches htop, hwants,
        hmap ▸ List.mem_map_of_mem hjob, (hjobs job hjob).output?_eq htree, (hjobs job hjob).entryOf_output, hlinked⟩
    have hsame : w'.found.mergeSort Path.le = found := by
      rw [← hsort, hsearch, List.filter_eq_self.mpr fun p hp => decide_eq_true (hnone p hp)]
    refine ⟨hsame, fun schedule' => ?_⟩
    rw [hsame, ← hmap] at hfound'
    have hagain := hran.convertTree_later hnodup hfound' schedule'
    rwa [hreports] at hagain

/-- The names in all folders are in order if those are in folders that have names in them. -/
theorem Disk.pairwise_names {disk : Disk} {order : Location → Bytes → Bytes → Prop}
    (h : ∀ e ∈ disk.nodes, (disk.names e.1.dropLast).Pairwise (order e.1.dropLast)) (D : Location) :
    (disk.names D).Pairwise (order D) := by
  by_cases hD : ∃ e ∈ disk.nodes, e.1.dropLast = D
  · obtain ⟨e, he, rfl⟩ := hD
    exact h e he
  · have hnil : disk.names D = [] := by
      refine List.eq_nil_iff_forall_not_mem.mpr fun n hn => hD ?_
      rw [names_eq] at hn
      obtain ⟨l, hl, hname⟩ := List.mem_filterMap.mp hn
      obtain ⟨e, he, rfl⟩ := List.mem_map.mp hl
      exact ⟨e, he, by rw [nameIn_eq_some_iff.mp hname, List.dropLast_concat]⟩
    rw [hnil]
    exact .nil

/-- The disk with two stylesheets after a batch, its places in the order of their names. -/
def sharedDiskLater : Disk where
  home := []
  nodes := [(.ofString "r", .folder), (.ofString "r/a-rtl.css", .file (bytes "a\x7bright:0\x7d".toList)),
    (.ofString "r/a.css", .file (bytes "a\x7bleft:0\x7d".toList)), (.ofString "r/s", .folder),
    (.ofString "r/s/b-rtl.css", .file (bytes "b\x7bfloat:left\x7d".toList)),
    (.ofString "r/s/b.css", .file (bytes "b\x7bfloat:right\x7d".toList)), (.ofString "r/t", .link (bytes "s".toList))]

/-- Under every schedule, the batch leaves this disk. -/
theorem sharedDiskLater_relists (schedule : Schedule) :
    Disk.Relists sharedDiskLater (convertTree schedule linkedSettings sharedDisk).2 := by
  obtain ⟨-, hran⟩ := sharedDisk_convertTree schedule
  refine Disk.Agrees.relists ⟨hran.grown.home.symm, fun l => ?_⟩ hran.isTree_later (by decide +kernel)
  by_cases hl : l ∈ sharedJobs.map Job.target
  · have hwritten : ∀ job ∈ sharedJobs,
        sharedDiskLater.node? job.target = some (.file (bytes job.sheet.text)) := by decide +kernel
    obtain ⟨job, hjob, rfl⟩ := List.mem_map.mp hl
    rw [hran.written job hjob, hwritten job hjob]
  · have hput : Disk.Relists sharedDiskLater
        ((sharedDisk.put (.ofString "r/a-rtl.css") (.file (bytes "a\x7bright:0\x7d".toList))).put
          (.ofString "r/s/b-rtl.css") (.file (bytes "b\x7bfloat:left\x7d".toList))) :=
      ⟨rfl, by decide +kernel⟩
    have htargets : sharedJobs.map Job.target = [.ofString "r/a-rtl.css", .ofString "r/s/b-rtl.css"] := by
      decide +kernel
    rw [htargets, List.mem_cons, List.mem_singleton, not_or] at hl
    rw [hran.kept l (htargets ▸ by simp [hl]), (hput.agrees (by decide +kernel)).node?,
      Disk.node?_put (by decide +kernel), if_neg hl.2, Disk.node?_put (by decide +kernel), if_neg hl.1]

/-- The only link is to a folder. -/
theorem sharedDisk_not_awaitsOutput : ¬ sharedDisk.AwaitsOutput linkedSettings sharedFound := by
  rintro ⟨top, D, n, p, o, x, -, -, hwants, -, -, -, hawaits⟩
  have hall : ∀ e ∈ sharedDisk.nodes, sharedDisk.isLink e.1 = true →
      e.1.getLast?.map linkedSettings.wants = some false := by decide +kernel
  obtain ⟨node, hnode⟩ := Disk.mem_names_iff.mp hawaits.mem
  have hlast := hall _ (Disk.mem_of_node? (by simp) hnode) hawaits.isLink
  rw [List.getLast?_concat, Option.map_some, hwants] at hlast
  cases hlast

/-- Here a second batch changes nothing. -/
theorem convertTree_rerun_sharedDisk :
    (discover sharedDiskLater linkedSettings).result = .ok sharedFound ∧
      ∀ schedule, (convertTree schedule linkedSettings sharedDiskLater).1.result = .ok ⟨sharedReports⟩ ∧
        (convertTree schedule linkedSettings sharedDiskLater).2 = sharedDiskLater := by
  have hasymm : ∀ (_ : Location) (a b : Bytes), a < b → ¬ b < a := fun _ _ _ => List.lt_asymm
  obtain ⟨found', hfound', -, hsame⟩ := convertTree_rerun (by decide +kernel) (by decide +kernel)
    (by decide +kernel) sharedDisk_discover sharedDisk_inputs sharedDisk_outputs (.inl fun _ => rfl)
    (sharedDisk_convertTree .inTurn).1 (sharedDiskLater_relists .inTurn) hasymm
    (Disk.pairwise_names (by decide +kernel)) (Disk.pairwise_names (by decide +kernel))
  obtain ⟨rfl, hagain⟩ := hsame sharedDisk_not_awaitsOutput
  exact ⟨hfound', hagain⟩

/-! ### A link that comes to life -/

/-- A disk with a stylesheet, and a link to where its output will be. -/
def revivedDisk : Disk where
  home := []
  nodes := [(.ofString "r", .folder), (.ofString "r/a.css", .file (bytes "a\x7bleft:0\x7d".toList)),
    (.ofString "r/x.css", .link (bytes "a-rtl.css".toList))]

/-- This disk after a batch. -/
def revivedDiskLater : Disk :=
  revivedDisk.put (.ofString "r/a-rtl.css") (.file (bytes "a\x7bright:0\x7d".toList))

/-- The link leads nowhere, so that it is not found. -/
theorem revivedDisk_discover : (discover revivedDisk linkedSettings).result = .ok [.ofString "r/a.css"] := by
  have hrun : Walk.runFor revivedDisk linkedSettings 1 (.start linkedSettings)
      = ⟨[], [.ofString "r"], [.ofString "r/a.css"], [.brokenLink (.ofString "r/x.css") .notFound], none⟩ := by cbv
  rw [discover_of_runFor 1 hrun, List.mergeSort_singleton]

/-- The link leads to the output, so that it is found. -/
theorem revivedDiskLater_discover :
    (discover revivedDiskLater linkedSettings).result = .ok [.ofString "r/a.css", .ofString "r/x.css"] := by
  have hsorted : [Path.ofString "r/a.css", .ofString "r/x.css"].mergeSort Path.le
      = [.ofString "r/a.css", .ofString "r/x.css"] := by cbv
  have hrun : Walk.runFor revivedDiskLater linkedSettings 1 (.start linkedSettings)
      = ⟨[], [.ofString "r"], [.ofString "r/a.css", .ofString "r/x.css"],
        [.skippedOutput (.ofString "r/a-rtl.css")], none⟩ := by cbv
  rw [discover_of_runFor 1 hrun, hsorted]

/-- The batch writes the only output. -/
theorem revivedDisk_convertTree (schedule : Schedule) :
    (convertTree schedule linkedSettings revivedDisk).1.result
        = .ok ⟨[⟨.ofString "r/a.css", .ofString "r/a-rtl.css", 1⟩]⟩ ∧
      (convertTree schedule linkedSettings revivedDisk).2 = revivedDiskLater := by
  have hreflect : linkedSettings.style.reflect "a\x7bleft:0\x7d".toList
      = .ok ⟨"a\x7bright:0\x7d".toList, 1, 1, 0⟩ := by decide +kernel
  have hread : revivedDisk.readText (.ofString "r/a.css") = .ok "a\x7bleft:0\x7d".toList :=
    Disk.readText_of_resolve (L := .ofString "r/a.css") (by cbv) (by decide +kernel)
  have houtput : (Path.ofString "r/a.css").output? linkedSettings.suffix = some (.ofString "r/a-rtl.css") := by
    decide +kernel
  have hplace : revivedDisk.place (.ofString "r/a-rtl.css") = .ok (.ofString "r/a-rtl.css") := by cbv
  obtain ⟨hresult, hdisk⟩ :=
    convertTree_of_single schedule revivedDisk_discover houtput hread hreflect hplace
  exact ⟨hresult, hdisk.trans (by cbv)⟩

/-- **A second batch may take an output for a stylesheet.** Before the first batch a link leads nowhere and is not
found. Neither the stylesheet that is found nor its output is a link. But the output is where the link leads to, so
that the link is found after the batch, whatever its schedule was. -/
theorem convertTree_revives_link :
    revivedDisk.IsTree ∧ (discover revivedDisk linkedSettings).result = .ok [.ofString "r/a.css"] ∧
      ¬ revivedDisk.LinkAt (.ofString "r/a.css") ∧ ¬ revivedDisk.LinkAt (.ofString "r/a-rtl.css") ∧
      ∀ schedule, (convertTree schedule linkedSettings revivedDisk).1.result
          = .ok ⟨[⟨.ofString "r/a.css", .ofString "r/a-rtl.css", 1⟩]⟩ ∧
        (discover (convertTree schedule linkedSettings revivedDisk).2 linkedSettings).result
          = .ok [.ofString "r/a.css", .ofString "r/x.css"] := by
  have hinput : revivedDisk.entryOf (.ofString "r/a.css") = .ok (.ofString "r/a.css") := by cbv
  have houtput : revivedDisk.entryOf (.ofString "r/a-rtl.css") = .ok (.ofString "r/a-rtl.css") := by cbv
  refine ⟨by decide +kernel, revivedDisk_discover, ?_, ?_, fun schedule => ?_⟩
  · rw [Disk.linkAt_iff hinput]
    decide +kernel
  · rw [Disk.linkAt_iff houtput]
    decide +kernel
  · obtain ⟨hresult, hdisk⟩ := revivedDisk_convertTree schedule
    exact ⟨hresult, hdisk ▸ revivedDiskLater_discover⟩

end BidiSheet
