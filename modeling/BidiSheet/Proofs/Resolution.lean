import BidiSheet.Disk.File
import BidiSheet.Proofs.Path

/-!
# Where paths lead

Where a path leads is said without regard to any limit by `Disk.Leads`: steps are taken one by one, and a
link is replaced by the steps of its target. A path leads to one place at most (`Leads.unique`), and to
none if a link on the way is missing its target or comes back to itself.

Following a path finds the place that it leads to (`leads_of_follow`), and fails on a path that leads
somewhere only at a limit (`follow_of_leads`). Two paths with the same marks lead to the same folder
(`follow_filter_iff`), and following goes on behind a path as from the place that it leads to
(`exists_follow_append`). More files on a disk do not change where a path leads (`Extends.follow`).
-/

namespace BidiSheet

namespace Disk

/-- Where some steps lead from a location, all links on the way being followed. -/
inductive Leads (disk : Disk) : Location → List Bytes → Location → Prop where
  | nil {loc : Location} : Leads disk loc [] loc
  /-- An idle step stays where it is. -/
  | idle {loc loc' : Location} {step : Bytes} {steps : List Bytes} (hfolder : disk.isFolder loc = true)
      (hidle : Path.isIdle step = true) (rest : Leads disk loc steps loc') :
      Leads disk loc (step :: steps) loc'
  /-- Two dots lead to the folder above. -/
  | up {loc loc' : Location} {steps : List Bytes} (hfolder : disk.isFolder loc = true)
      (rest : Leads disk loc.dropLast steps loc') : Leads disk loc ([dot, dot] :: steps) loc'
  /-- The name of a file or a folder leads to it. -/
  | enter {loc loc' : Location} {step : Bytes} {steps : List Bytes} {node : Node}
      (hfolder : disk.isFolder loc = true) (hidle : Path.isIdle step = false) (hup : step ≠ [dot, dot])
      (hnode : disk.node? (loc ++ [step]) = some node) (hlink : ∀ target, node ≠ .link target)
      (rest : Leads disk (loc ++ [step]) steps loc') : Leads disk loc (step :: steps) loc'
  /-- The name of a link leads where its target does. -/
  | link {loc loc' : Location} {step target : Bytes} {steps : List Bytes}
      (hfolder : disk.isFolder loc = true) (hidle : Path.isIdle step = false) (hup : step ≠ [dot, dot])
      (hnode : disk.node? (loc ++ [step]) = some (.link target))
      (rest : Leads disk (startOf loc target) (target.splitOn slash ++ steps) loc') :
      Leads disk loc (step :: steps) loc'

variable {disk : Disk} {links : Nat} {loc x : Location} {step : Bytes} {steps : List Bytes}

/-! ### One step -/

/-- Two dots are not idle. -/
theorem not_isIdle_up : Path.isIdle [dot, dot] = false := rfl

section

variable (hfolder : disk.isFolder loc = true)

include hfolder

/-- An idle step leads nowhere else. -/
theorem follow_idle (hidle : Path.isIdle step = true) :
    disk.follow links loc (step :: steps) = disk.follow links loc steps := by
  rw [follow]
  simp [hfolder, hidle]

/-- An idle step leads to no other place. -/
theorem followPlace_idle (hidle : Path.isIdle step = true) :
    disk.followPlace links loc (step :: steps) = disk.followPlace links loc steps := by
  rw [followPlace]
  simp [hfolder, hidle]

/-- Two dots lead to the folder above. -/
theorem follow_up : disk.follow links loc ([dot, dot] :: steps) = disk.follow links loc.dropLast steps := by
  rw [follow]
  simp [hfolder, not_isIdle_up]

/-- Two dots lead to the place above. -/
theorem followPlace_up :
    disk.followPlace links loc ([dot, dot] :: steps) = disk.followPlace links loc.dropLast steps := by
  rw [followPlace]
  simp [hfolder, not_isIdle_up]

variable (hidle : Path.isIdle step = false) (hup : step ≠ [dot, dot])
  (hsize : step.length ≤ nameLimit)

include hidle hup hsize

/-- The name of a file or folder leads to it. -/
theorem follow_enter {node : Node} (hnode : disk.node? (loc ++ [step]) = some node)
    (hlink : ∀ target, node ≠ .link target) :
    disk.follow links loc (step :: steps) = disk.follow links (loc ++ [step]) steps := by
  rw [follow]
  simp [hfolder, hidle, hup, Nat.not_lt.mpr hsize, hnode]

/-- The name of a link leads along its target, and uses up one link. -/
theorem follow_link {target : Bytes} (hnode : disk.node? (loc ++ [step]) = some (.link target)) :
    disk.follow (links + 1) loc (step :: steps)
      = disk.follow links (startOf loc target) (target.splitOn slash ++ steps) := by
  rw [follow]
  simp [hfolder, hidle, hup, Nat.not_lt.mpr hsize, hnode]

variable (hsteps : steps.all (· = []) = false)

include hsteps

/-- The name of a file or folder leads to its place. -/
theorem followPlace_enter {node : Node} (hnode : disk.node? (loc ++ [step]) = some node)
    (hlink : ∀ target, node ≠ .link target) :
    disk.followPlace links loc (step :: steps) = disk.followPlace links (loc ++ [step]) steps := by
  have hne : steps ≠ [] := by
    rintro rfl
    cases hsteps
  rw [followPlace]
  simp [hfolder, hidle, hup, Nat.not_lt.mpr hsize, hnode, hne, hsteps]

/-- The name of a link leads to a place along its target. -/
theorem followPlace_link {target : Bytes} (hnode : disk.node? (loc ++ [step]) = some (.link target)) :
    disk.followPlace (links + 1) loc (step :: steps)
      = disk.followPlace links (startOf loc target) (target.splitOn slash ++ steps) := by
  have hne : steps ≠ [] := by
    rintro rfl
    cases hsteps
  rw [followPlace]
  simp [hfolder, hidle, hup, Nat.not_lt.mpr hsize, hnode, hne, hsteps]

end

/-! ### Following is leading -/

/-- **What following finds is where the steps lead.** -/
theorem leads_of_follow (h : disk.follow links loc steps = .ok x) : disk.Leads loc steps x := by
  fun_induction follow disk links loc steps with
  | case1 => cases h; exact .nil
  | case2 => cases h
  | case3 links loc step steps hfolder hidle ih => exact .idle (by simpa using hfolder) hidle (ih h)
  | case4 links loc steps hfolder hidle ih => exact .up (by simpa using hfolder) (ih h)
  | case5 => cases h
  | case6 => cases h
  | case7 => cases h
  | case8 loc step steps hfolder hidle hup hsize target hnode links ih =>
    exact .link (by simpa using hfolder) (by simpa using hidle) hup hnode (ih h)
  | case9 links loc step steps hfolder hidle hup hsize node hlink hnode ih =>
    exact .enter (by simpa using hfolder) (by simpa using hidle) hup hnode hlink (ih h)

/-- **Steps that lead somewhere can be followed there**, unless there are too many links or a name is too
long. -/
theorem follow_of_leads (h : disk.Leads loc steps x) (links : Nat) :
    disk.follow links loc steps = .ok x ∨ disk.follow links loc steps = .error .linkLoop ∨
      disk.follow links loc steps = .error .tooLong := by
  induction h generalizing links with
  | nil => exact .inl (by rw [follow])
  | idle hfolder hidle rest ih => rw [follow_idle hfolder hidle]; exact ih links
  | up hfolder rest ih => rw [follow_up hfolder]; exact ih links
  | @enter loc loc' step steps node hfolder hidle hup hnode hlink rest ih =>
    by_cases hsize : step.length ≤ nameLimit
    · rw [follow_enter hfolder hidle hup hsize hnode hlink]
      exact ih links
    · refine .inr (.inr ?_)
      rw [follow]
      simp [hfolder, hidle, hup, Nat.not_le.mp hsize]
  | @link loc loc' step target steps hfolder hidle hup hnode rest ih =>
    by_cases hsize : step.length ≤ nameLimit
    · cases links with
      | zero =>
        refine .inr (.inl ?_)
        rw [follow]
        simp [hfolder, hidle, hup, Nat.not_lt.mpr hsize, hnode]
      | succ links =>
        rw [follow_link hfolder hidle hup hsize hnode]
        exact ih links
    · refine .inr (.inr ?_)
      rw [follow]
      simp [hfolder, hidle, hup, Nat.not_le.mp hsize]

/-- Steps lead to one place at most. -/
theorem Leads.unique {y : Location} (h : disk.Leads loc steps x) (h' : disk.Leads loc steps y) : x = y := by
  induction h with
  | nil => cases h'; rfl
  | idle hfolder hidle rest ih =>
    cases h' with
    | idle _ _ rest' => exact ih rest'
    | up _ _ => cases hidle
    | enter _ hidle' | link _ hidle' => rw [hidle] at hidle'; cases hidle'
  | up hfolder rest ih =>
    cases h' with
    | idle _ hidle' => cases hidle'
    | up _ rest' => exact ih rest'
    | enter _ _ hup | link _ _ hup => exact absurd rfl hup
  | enter hfolder hidle hup hnode hlink rest ih =>
    cases h' with
    | idle _ hidle' => rw [hidle] at hidle'; cases hidle'
    | up _ _ => exact absurd rfl hup
    | enter _ _ _ _ _ rest' => exact ih rest'
    | link _ _ _ hnode' _ =>
      rw [hnode] at hnode'
      cases hnode'
      exact absurd rfl (hlink _)
  | link hfolder hidle hup hnode rest ih =>
    cases h' with
    | idle _ hidle' => rw [hidle] at hidle'; cases hidle'
    | up _ _ => exact absurd rfl hup
    | enter _ _ _ hnode' hlink _ =>
      rw [hnode] at hnode'
      cases hnode'
      exact absurd rfl (hlink _)
    | link _ _ _ hnode' rest' =>
      rw [hnode] at hnode'
      cases hnode'
      exact ih rest'

/-- A link to itself leads nowhere. -/
theorem not_leads_of_link_self (hslash : slash ∉ step) (hidle : Path.isIdle step = false)
    (hup : step ≠ [dot, dot]) (hnode : disk.node? (loc ++ [step]) = some (.link step)) :
    ¬ disk.Leads loc (step :: steps) x := by
  intro h
  generalize hsteps : step :: steps = steps' at h
  induction h generalizing steps with
  | nil => cases hsteps
  | idle _ hidle' _ _ => cases hsteps; rw [hidle] at hidle'; cases hidle'
  | up _ _ _ => cases hsteps; exact hup rfl
  | enter _ _ _ hnode' hlink _ _ =>
    cases hsteps
    rw [hnode] at hnode'
    cases hnode'
    exact hlink _ rfl
  | @link loc _ _ _ rest _ _ _ hnode' _ ih =>
    cases hsteps
    rw [hnode] at hnode'
    cases hnode'
    have hstart : startOf loc step = loc := if_neg fun hhead => hslash (List.mem_of_mem_head? hhead)
    rw [hstart, List.splitOn_eq_singleton hslash] at ih
    exact ih hnode rfl

/-! ### One path behind another -/

/-- Steps lead somewhere over the place that the first of them lead to. -/
theorem leads_append_iff {s t : List Bytes} :
    disk.Leads loc (s ++ t) x ↔ ∃ m, disk.Leads loc s m ∧ disk.Leads m t x := by
  constructor
  · intro h
    generalize hst : s ++ t = steps at h
    induction h generalizing s with
    | nil =>
      obtain ⟨rfl, rfl⟩ := List.append_eq_nil_iff.mp hst
      exact ⟨_, .nil, .nil⟩
    | idle hfolder hidle rest ih =>
      cases s with
      | nil =>
        obtain rfl : t = _ := hst
        exact ⟨_, .nil, .idle hfolder hidle rest⟩
      | cons step s =>
        cases hst
        obtain ⟨m, hs, ht⟩ := ih rfl
        exact ⟨m, .idle hfolder hidle hs, ht⟩
    | up hfolder rest ih =>
      cases s with
      | nil =>
        obtain rfl : t = _ := hst
        exact ⟨_, .nil, .up hfolder rest⟩
      | cons step s =>
        cases hst
        obtain ⟨m, hs, ht⟩ := ih rfl
        exact ⟨m, .up hfolder hs, ht⟩
    | enter hfolder hidle hup hnode hlink rest ih =>
      cases s with
      | nil =>
        obtain rfl : t = _ := hst
        exact ⟨_, .nil, .enter hfolder hidle hup hnode hlink rest⟩
      | cons step s =>
        cases hst
        obtain ⟨m, hs, ht⟩ := ih rfl
        exact ⟨m, .enter hfolder hidle hup hnode hlink hs, ht⟩
    | link hfolder hidle hup hnode rest ih =>
      cases s with
      | nil =>
        obtain rfl : t = _ := hst
        exact ⟨_, .nil, .link hfolder hidle hup hnode rest⟩
      | cons step s =>
        cases hst
        obtain ⟨m, hs, ht⟩ := ih (List.append_assoc _ _ _)
        exact ⟨m, .link hfolder hidle hup hnode hs, ht⟩
  · rintro ⟨m, hs, ht⟩
    induction hs with
    | nil => exact ht
    | idle hfolder hidle rest ih => exact .idle hfolder hidle (ih ht)
    | up hfolder rest ih => exact .up hfolder (ih ht)
    | enter hfolder hidle hup hnode hlink rest ih => exact .enter hfolder hidle hup hnode hlink (ih ht)
    | link hfolder hidle hup hnode rest ih =>
      exact .link hfolder hidle hup hnode (List.append_assoc _ _ t ▸ ih ht)

/-- **Following goes on behind some steps** as from the place that they lead to, with the links that are
left. -/
theorem exists_follow_append (h : disk.follow links loc steps = .ok x) :
    ∃ links', (∀ t, disk.follow links loc (steps ++ t) = disk.follow links' x t) ∧
      ∀ t, t.all (· = []) = false →
        disk.followPlace links loc (steps ++ t) = disk.followPlace links' x t := by
  have hall : ∀ {s t : List Bytes}, t.all (· = []) = false → (s ++ t).all (· = []) = false := by
    intro s t ht
    rw [List.all_append, ht, Bool.and_false]
  fun_induction follow disk links loc steps with
  | case1 links loc =>
    cases h
    exact ⟨links, fun _ => rfl, fun _ _ => rfl⟩
  | case2 => cases h
  | case3 links loc step steps hfolder hidle ih =>
    obtain ⟨links', hfollow, hplace⟩ := ih h
    have hfolder : disk.isFolder loc = true := by simpa using hfolder
    refine ⟨links', fun t => ?_, fun t ht => ?_⟩
    · rw [List.cons_append, follow_idle hfolder hidle, hfollow]
    · rw [List.cons_append, followPlace_idle hfolder hidle, hplace t ht]
  | case4 links loc steps hfolder hidle ih =>
    obtain ⟨links', hfollow, hplace⟩ := ih h
    have hfolder : disk.isFolder loc = true := by simpa using hfolder
    refine ⟨links', fun t => ?_, fun t ht => ?_⟩
    · rw [List.cons_append, follow_up hfolder, hfollow]
    · rw [List.cons_append, followPlace_up hfolder, hplace t ht]
  | case5 => cases h
  | case6 => cases h
  | case7 => cases h
  | case8 loc step steps hfolder hidle hup hsize target hnode links ih =>
    obtain ⟨links', hfollow, hplace⟩ := ih h
    have hfolder : disk.isFolder loc = true := by simpa using hfolder
    have hidle : Path.isIdle step = false := by simpa using hidle
    refine ⟨links', fun t => ?_, fun t ht => ?_⟩
    · rw [List.cons_append, follow_link hfolder hidle hup (Nat.not_lt.mp hsize) hnode,
        ← List.append_assoc, hfollow]
    · rw [List.cons_append, followPlace_link hfolder hidle hup (Nat.not_lt.mp hsize) (hall ht) hnode,
        ← List.append_assoc, hplace t ht]
  | case9 links loc step steps hfolder hidle hup hsize node hlink hnode ih =>
    obtain ⟨links', hfollow, hplace⟩ := ih h
    have hfolder : disk.isFolder loc = true := by simpa using hfolder
    have hidle : Path.isIdle step = false := by simpa using hidle
    refine ⟨links', fun t => ?_, fun t ht => ?_⟩
    · rw [List.cons_append, follow_enter hfolder hidle hup (Nat.not_lt.mp hsize) hnode hlink, hfollow]
    · rw [List.cons_append, followPlace_enter hfolder hidle hup (Nat.not_lt.mp hsize) (hall ht) hnode
        hlink, hplace t ht]

/-- Where following fails, it fails whatever steps come behind. -/
theorem follow_append_error {fault : DiskFault} (h : disk.follow links loc steps = .error fault)
    (t : List Bytes) : disk.follow links loc (steps ++ t) = .error fault := by
  fun_induction follow disk links loc steps with
  | case1 => cases h
  | case2 links loc step steps hfolder =>
    rw [List.cons_append, follow, if_pos hfolder, h]
  | case3 links loc step steps hfolder hidle ih =>
    rw [List.cons_append, follow_idle (by simpa using hfolder) hidle, ih h]
  | case4 links loc steps hfolder hidle ih =>
    rw [List.cons_append, follow_up (by simpa using hfolder), ih h]
  | case5 links loc step steps hfolder hidle hup hsize =>
    rw [List.cons_append, follow, if_neg hfolder, if_neg hidle, if_neg hup, if_pos hsize, h]
  | case6 links loc step steps hfolder hidle hup hsize hnode =>
    rw [List.cons_append, follow, if_neg hfolder, if_neg hidle, if_neg hup, if_neg hsize, hnode, h]
  | case7 loc step steps hfolder hidle hup hsize target hnode =>
    rw [List.cons_append, follow, if_neg hfolder, if_neg hidle, if_neg hup, if_neg hsize, hnode, h]
  | case8 loc step steps hfolder hidle hup hsize target hnode links ih =>
    rw [List.cons_append, follow_link (by simpa using hfolder) (by simpa using hidle) hup
      (Nat.not_lt.mp hsize) hnode, ← List.append_assoc, ih h]
  | case9 links loc step steps hfolder hidle hup hsize node hlink hnode ih =>
    rw [List.cons_append, follow_enter (by simpa using hfolder) (by simpa using hidle) hup
      (Nat.not_lt.mp hsize) hnode hlink, ih h]

/-! ### Idle steps -/

section

variable (hx : disk.isFolder x = true)

include hx

/-- A path to a folder begins in a folder. -/
theorem isFolder_of_follow (h : disk.follow links loc steps = .ok x) : disk.isFolder loc = true := by
  cases steps with
  | nil =>
    rw [follow] at h
    cases h
    exact hx
  | cons step steps =>
    rw [follow] at h
    by_contra hfolder
    rw [if_pos (by simpa using hfolder)] at h
    cases h

/-- An idle step at the front changes nothing on the way to a folder. -/
theorem follow_idle_iff (hidle : Path.isIdle step = true) :
    disk.follow links loc (step :: steps) = .ok x ↔ disk.follow links loc steps = .ok x := by
  constructor
  · intro h
    rwa [follow_idle (isFolder_of_follow hx h) hidle] at h
  · intro h
    rwa [follow_idle (isFolder_of_follow hx h) hidle]

/-- **Idle steps change nothing on the way to a folder.** -/
theorem follow_filter_iff (steps : List Bytes) :
    disk.follow links loc (steps.filter (!Path.isIdle ·)) = .ok x ↔
      disk.follow links loc steps = .ok x := by
  induction steps generalizing links loc with
  | nil => rfl
  | cons step steps ih =>
    rcases hidle : Path.isIdle step with _ | _
    · -- the first step is the same on both sides, wherever it leads
      rw [List.filter_cons_of_pos (by simp [hidle]), ← List.singleton_append,
        ← List.singleton_append (l := steps)]
      cases hstep : disk.follow links loc [step] with
      | ok m =>
        obtain ⟨links', hfollow, -⟩ := exists_follow_append hstep
        rw [hfollow, hfollow, ih]
      | error fault => rw [follow_append_error hstep, follow_append_error hstep]
    · rw [List.filter_cons_of_neg (by simp [hidle]), follow_idle_iff hx hidle, ih]

end

/-! ### Paths -/

/-- Where a path leads. -/
def LeadsTo (disk : Disk) (path : Path) (x : Location) : Prop :=
  disk.Leads (startOf disk.home path.raw) path.steps x

/-- A path leads to one place only. -/
theorem LeadsTo.unique {path : Path} {y : Location} (h : disk.LeadsTo path x)
    (h' : disk.LeadsTo path y) : x = y :=
  Leads.unique h h'

/-- A path may be looked at if it is not too long and has no zero byte. -/
theorem refusal?_eq_none_iff {path : Path} :
    refusal? path = none ↔ nul ∉ path.raw ∧ path.raw.length ≤ pathLimit := by
  unfold refusal?
  split
  · next hnul => simp [hnul]
  split
  · next hnul hsize => simp [Nat.not_le.mpr hsize]
  · next hnul hsize => simp [hnul, Nat.not_lt.mp hsize]

/-- When a path can be resolved. -/
theorem resolve_eq_ok_iff {path : Path} :
    disk.resolve path = .ok x ↔ refusal? path = none ∧ path.raw ≠ [] ∧
      disk.follow linkLimit (startOf disk.home path.raw) path.steps = .ok x := by
  unfold resolve locate
  cases hrefusal : refusal? path with
  | some fault => simp
  | none =>
    have hnul := (refusal?_eq_none_iff.mp hrefusal).1
    by_cases htext : path.raw = []
    · simp [htext]
    · simp [hnul, htext, Path.steps]

/-- A path that can be resolved leads to that place. -/
theorem leadsTo_of_resolve {path : Path} (h : disk.resolve path = .ok x) : disk.LeadsTo path x :=
  leads_of_follow (resolve_eq_ok_iff.mp h).2.2

/-- Where a path starts is seen from its first byte. -/
theorem startOf_of_prefix {s t : Bytes} (hs : s ≠ []) (h : s <+: t) : startOf loc t = startOf loc s := by
  obtain ⟨w, rfl⟩ := h
  rw [startOf, startOf, List.head?_append_of_ne_nil _ hs]

section

variable {q : Path} {n : Bytes}

/-- **A name in a folder leads where the name does from the folder.** -/
theorem leadsTo_join (hq : q.raw ≠ []) (hn : slash ∉ n) {D : Location} (h : disk.LeadsTo q D) :
    disk.LeadsTo (q.join n) x ↔ disk.Leads D [n] x := by
  obtain ⟨front, hfront, hjoin⟩ := q.steps_join
  have hlead : disk.Leads (startOf disk.home q.raw) front D := by
    unfold LeadsTo at h
    rcases hfront with hq | hq <;> rw [hq] at h
    · exact h
    · obtain ⟨m, hm, hlast⟩ := leads_append_iff.mp h
      cases hlast with
      | idle _ _ rest =>
        cases rest
        exact hm
      | enter _ hidle | link _ hidle => cases hidle
  unfold LeadsTo
  rw [hjoin n hn, startOf_of_prefix hq (q.prefix_join n), leads_append_iff]
  constructor
  · rintro ⟨m, hm, hx⟩
    rwa [← hm.unique hlead]
  · intro hx
    exact ⟨D, hlead, hx⟩

variable {D : Location} (h : disk.resolve q = .ok D) (hD : disk.isFolder D = true)

include h hD

/-- **Resolving a name in a folder, or placing a file there**, goes on from the folder. -/
theorem exists_resolve_join : ∃ links, ∀ n, slash ∉ n → n ≠ [] → refusal? (q.join n) = none →
    disk.resolve (q.join n) = disk.follow links D [n] ∧
      disk.place (q.join n) = disk.followPlace links D [n] := by
  obtain ⟨-, hq, hfollow⟩ := resolve_eq_ok_iff.mp h
  obtain ⟨front, hfront, hjoin⟩ := q.steps_join
  have hfront : disk.follow linkLimit (startOf disk.home q.raw) front = .ok D := by
    rw [← follow_filter_iff hD] at hfollow ⊢
    rcases hfront with hq | hq
    · rwa [← hq]
    · rwa [hq, List.filter_append, show [[]].filter (!Path.isIdle ·) = [] from rfl,
        List.append_nil] at hfollow
  obtain ⟨links, hresolve, hplace⟩ := exists_follow_append hfront
  refine ⟨links, fun n hn hnil hrefusal => ?_⟩
  have htext := Path.join_ne_nil hq n
  have hnul := (refusal?_eq_none_iff.mp hrefusal).1
  have hstart : startOf disk.home (q.join n).raw = startOf disk.home q.raw :=
    startOf_of_prefix hq (q.prefix_join n)
  have hsteps : (q.join n).raw.splitOn slash = front ++ [n] := hjoin n hn
  constructor
  · rw [resolve, hrefusal, locate, if_neg hnul, if_neg htext, hstart, hsteps, hresolve]
  · rw [place, hrefusal]
    simp only [if_neg htext]
    rw [hstart, hsteps, hplace _ (by simpa using hnil)]

/-- A folder can be reached without the idle steps at the end of its path. -/
theorem resolve_trimmed : disk.resolve q.trimmed = .ok D := by
  obtain ⟨hrefusal, hq, hfollow⟩ := resolve_eq_ok_iff.mp h
  obtain ⟨hnul, hsize⟩ := refusal?_eq_none_iff.mp hrefusal
  have hne := Path.trimmed_ne_nil hq
  have hpre := q.trimmed_prefix
  refine resolve_eq_ok_iff.mpr ⟨refusal?_eq_none_iff.mpr ⟨?_, ?_⟩, hne, ?_⟩
  · exact fun hmem => hnul (hpre.subset hmem)
  · obtain ⟨w, hw⟩ := hpre
    rw [← hw, List.length_append] at hsize
    omega
  · rw [← startOf_of_prefix hne hpre, ← follow_filter_iff hD, Path.filter_steps, Path.marks_trimmed hq,
      ← Path.filter_steps, follow_filter_iff hD]
    exact hfollow

/-- The place of a name in a folder. -/
theorem entryOf_join (hn : Path.IsName n) : disk.entryOf (q.join n) = .ok (D ++ [n]) := by
  obtain ⟨-, hq, -⟩ := resolve_eq_ok_iff.mp h
  unfold entryOf
  rw [Path.split?_join hq hn.isEntry]
  simp only [if_neg (Path.trimmed_ne_nil hq), resolve_trimmed h hD]
  rfl

end

/-! ### Disks with more files -/

/-- Two disks with the same working folder and the same at every place, but that there may be a file on the second
one where there is a file or nothing on the first. -/
structure Extends (disk disk' : Disk) : Prop where
  home : disk'.home = disk.home
  node : ∀ l, disk'.node? l = disk.node? l ∨
    disk.isFolder l = false ∧ disk.isLink l = false ∧ ∃ bytes, disk'.node? l = some (.file bytes)

namespace Extends

variable {disk' : Disk} (h : Extends disk disk')

include h

/-- A disk with more files has the same folders. -/
theorem isFolder_eq (l : Location) : disk'.isFolder l = disk.isFolder l := by
  rcases h.node l with heq | ⟨hfolder, -, bytes, hfile⟩
  · unfold isFolder
    rw [heq]
  · rw [hfolder]
    unfold isFolder
    rw [hfile]

/-- A disk with more files has the same links. -/
theorem isLink_eq (l : Location) : disk'.isLink l = disk.isLink l := by
  rcases h.node l with heq | ⟨-, hlink, bytes, hfile⟩
  · unfold isLink
    rw [heq]
  · rw [hlink]
    unfold isLink
    rw [hfile]

/-- Links lead where they did. -/
theorem node?_link {l : Location} {target : Bytes} (hnode : disk.node? l = some (.link target)) :
    disk'.node? l = some (.link target) := by
  rcases h.node l with heq | ⟨-, hlink, -⟩
  · rw [heq, hnode]
  · rw [isLink, hnode] at hlink
    cases hlink

/-- What is no link has not become one. -/
theorem exists_node? {l : Location} {node : Node} (hnode : disk.node? l = some node)
    (hlink : ∀ target, node ≠ .link target) :
    ∃ node', disk'.node? l = some node' ∧ ∀ target, node' ≠ .link target := by
  rcases h.node l with heq | ⟨-, -, bytes, hfile⟩
  · exact ⟨node, heq.trans hnode, hlink⟩
  · exact ⟨.file bytes, hfile, by simp⟩

/-- **What can be followed leads to the same place.** -/
theorem follow (hfollow : disk.follow links loc steps = .ok x) : disk'.follow links loc steps = .ok x := by
  fun_induction Disk.follow disk links loc steps with
  | case1 => rw [Disk.follow]; exact hfollow
  | case2 => cases hfollow
  | case3 links loc step steps hfolder hidle ih =>
    rw [follow_idle (by simpa [h.isFolder_eq] using hfolder) hidle, ih hfollow]
  | case4 links loc steps hfolder hidle ih =>
    rw [follow_up (by simpa [h.isFolder_eq] using hfolder), ih hfollow]
  | case5 => cases hfollow
  | case6 => cases hfollow
  | case7 => cases hfollow
  | case8 loc step steps hfolder hidle hup hsize target hnode links ih =>
    rw [follow_link (by simpa [h.isFolder_eq] using hfolder) (by simpa using hidle) hup
      (Nat.not_lt.mp hsize) (h.node?_link hnode), ih hfollow]
  | case9 links loc step steps hfolder hidle hup hsize node hlink hnode ih =>
    obtain ⟨node', hnode', hlink'⟩ := h.exists_node? hnode hlink
    rw [follow_enter (by simpa [h.isFolder_eq] using hfolder) (by simpa using hidle) hup
      (Nat.not_lt.mp hsize) hnode' hlink', ih hfollow]

/-- A path that could be resolved still leads to the same place. -/
theorem resolve {path : Path} (hresolve : disk.resolve path = .ok x) : disk'.resolve path = .ok x := by
  rw [resolve_eq_ok_iff] at hresolve ⊢
  rw [h.home]
  exact ⟨hresolve.1, hresolve.2.1, h.follow hresolve.2.2⟩

/-- Steps lead where they did. -/
theorem leads (hlead : disk.Leads loc steps x) : disk'.Leads loc steps x := by
  induction hlead with
  | nil => exact .nil
  | idle hfolder hidle rest ih => exact .idle ((h.isFolder_eq _).trans hfolder) hidle ih
  | up hfolder rest ih => exact .up ((h.isFolder_eq _).trans hfolder) ih
  | enter hfolder hidle hup hnode hlink rest ih =>
    obtain ⟨node', hnode', hlink'⟩ := h.exists_node? hnode hlink
    exact .enter ((h.isFolder_eq _).trans hfolder) hidle hup hnode' hlink' ih
  | link hfolder hidle hup hnode rest ih =>
    exact .link ((h.isFolder_eq _).trans hfolder) hidle hup (h.node?_link hnode) ih

/-- Paths lead where they did. -/
theorem leadsTo {path : Path} (hlead : disk.LeadsTo path x) : disk'.LeadsTo path x := by
  unfold LeadsTo at hlead ⊢
  rw [h.home]
  exact h.leads hlead

end Extends

/-- Two disks with the same working folder and the same at every place. -/
structure Agrees (disk' disk : Disk) : Prop where
  home : disk'.home = disk.home
  node? : ∀ loc, disk'.node? loc = disk.node? loc

namespace Agrees

variable {disk' : Disk} (h : Agrees disk' disk)

include h

theorem symm : Agrees disk disk' := ⟨h.home.symm, fun loc => (h.node? loc).symm⟩

/-- A disk that agrees with another one extends it. -/
theorem toExtends : Extends disk disk' := ⟨h.home, fun l => .inl (h.node? l)⟩

end Agrees

end Disk

end BidiSheet
