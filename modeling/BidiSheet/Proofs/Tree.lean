import BidiSheet.Proofs.Resolution
import BidiSheet.Walk

/-!
# File trees

A disk is a *tree* if no place is listed twice, every name may be one, and what is in a folder is in a
folder that is there (`Disk.IsTree`). In a tree, the names in a folder are those of the places below it
(`Disk.mem_names_iff`), each listed once (`Disk.IsTree.nodup_names`), and what is at a place does not
depend on the order in which the places are listed (`Disk.Relists.agrees`).

Putting a node at a place changes nothing elsewhere (`Disk.node?_put`), and a file that is put in a folder leaves a
tree (`Disk.IsTree.put_file`).
-/

namespace BidiSheet

namespace Disk

/-- A disk that is a tree of folders, with files and links in them. -/
structure IsTree (disk : Disk) : Prop where
  nodup_locations : (disk.nodes.map Prod.fst).Nodup
  isName : ∀ e ∈ disk.nodes, ∀ n ∈ e.1, Path.IsName n
  ne_nil : ∀ e ∈ disk.nodes, e.1 ≠ []
  isFolder_dropLast : ∀ e ∈ disk.nodes, disk.isFolder e.1.dropLast = true
  isFolder_home : disk.isFolder disk.home = true

instance (disk : Disk) : Decidable disk.IsTree :=
  decidable_of_iff ((disk.nodes.map Prod.fst).Nodup ∧ (∀ e ∈ disk.nodes, ∀ n ∈ e.1, Path.IsName n) ∧
      (∀ e ∈ disk.nodes, e.1 ≠ []) ∧ (∀ e ∈ disk.nodes, disk.isFolder e.1.dropLast = true) ∧
        disk.isFolder disk.home = true)
    ⟨fun ⟨h₁, h₂, h₃, h₄, h₅⟩ => ⟨h₁, h₂, h₃, h₄, h₅⟩, fun ⟨h₁, h₂, h₃, h₄, h₅⟩ => ⟨h₁, h₂, h₃, h₄, h₅⟩⟩

/-- Two disks with the same places, listed in any order. -/
structure Relists (disk' disk : Disk) : Prop where
  home : disk'.home = disk.home
  nodes : disk'.nodes.Perm disk.nodes

/-! ### Places and names -/

variable {disk disk' : Disk} {loc D : Location} {n : Bytes} {node : Node}

/-- What is looked up is listed. -/
theorem mem_of_lookup {nodes : List (Location × Node)} (h : nodes.lookup loc = some node) :
    (loc, node) ∈ nodes := by
  obtain ⟨l₁, l₂, rfl, -⟩ := List.lookup_eq_some_iff.mp h
  simp

/-- What is at a place is what is listed there, if no place is listed twice. -/
theorem lookup_of_mem {nodes : List (Location × Node)} (hnodup : (nodes.map Prod.fst).Nodup)
    (h : (loc, node) ∈ nodes) : nodes.lookup loc = some node := by
  obtain ⟨l₁, l₂, rfl⟩ := List.append_of_mem h
  refine List.lookup_eq_some_iff.mpr ⟨l₁, l₂, rfl, fun e he => ?_⟩
  rw [List.map_append, List.map_cons, List.nodup_append] at hnodup
  have hne := hnodup.2.2 e.1 (List.mem_map_of_mem he) loc List.mem_cons_self
  simpa using Ne.symm hne

/-- The name that a place has in a folder, if it is there. -/
def nameIn (D loc : Location) : Option Bytes := if loc.dropLast = D then loc.getLast? else none

/-- A place is in a folder under its last name. -/
theorem nameIn_eq_some_iff : nameIn D loc = some n ↔ loc = D ++ [n] := by
  unfold nameIn
  constructor
  · intro h
    split at h
    · next hD =>
      obtain ⟨front, rfl⟩ := List.getLast?_eq_some_iff.mp h
      rw [← hD, List.dropLast_concat]
    · cases h
  · rintro rfl
    rw [if_pos List.dropLast_concat, List.getLast?_concat]

/-- The names in a folder are read off the places. -/
theorem names_eq (disk : Disk) (D : Location) :
    disk.names D = (disk.nodes.map Prod.fst).filterMap (nameIn D) := by
  rw [List.filterMap_map]
  rfl

/-- A name is in a folder if something is at its place. -/
theorem mem_names_iff : n ∈ disk.names D ↔ ∃ node, disk.node? (D ++ [n]) = some node := by
  have hne : D ++ [n] ≠ [] := by simp
  rw [names_eq, List.mem_filterMap, node?, if_neg hne]
  constructor
  · rintro ⟨loc, hmem, hname⟩
    rw [nameIn_eq_some_iff] at hname
    subst hname
    obtain ⟨⟨_, node⟩, hnode, rfl⟩ := List.mem_map.mp hmem
    cases hlookup : disk.nodes.lookup (D ++ [n]) with
    | some node => exact ⟨node, rfl⟩
    | none => exact absurd (List.lookup_eq_none_iff.mp hlookup _ hnode) (by simp)
  · rintro ⟨node, hnode⟩
    exact ⟨_, List.mem_map_of_mem (mem_of_lookup hnode), nameIn_eq_some_iff.mpr rfl⟩

/-- A folder has each name once. -/
theorem IsTree.nodup_names (h : disk.IsTree) (D : Location) : (disk.names D).Nodup := by
  rw [names_eq]
  refine h.nodup_locations.filterMap fun a a' n ha ha' => ?_
  rw [nameIn_eq_some_iff.mp ha, nameIn_eq_some_iff.mp ha']

/-- The names in a folder are names. -/
theorem IsTree.isName_of_mem_names (h : disk.IsTree) (hn : n ∈ disk.names D) : Path.IsName n := by
  obtain ⟨node, hnode⟩ := mem_names_iff.mp hn
  rw [node?, if_neg (by simp)] at hnode
  exact h.isName _ (mem_of_lookup hnode) n (by simp)

/-! ### Listing places in another order -/

section

variable (h : Relists disk' disk) (htree : disk.IsTree)

include h htree

/-- A disk that lists its places in another order lists none twice. -/
theorem Relists.nodup_locations : (disk'.nodes.map Prod.fst).Nodup :=
  ((h.nodes.map Prod.fst).nodup_iff).mpr htree.nodup_locations

/-- **What is at a place does not depend on the order of listing.** -/
theorem Relists.agrees : Agrees disk' disk := by
  refine ⟨h.home, fun loc => ?_⟩
  unfold node?
  split
  · rfl
  · apply Option.ext
    intro node
    constructor
    · intro hnode
      exact lookup_of_mem htree.nodup_locations (h.nodes.mem_iff.mp (mem_of_lookup hnode))
    · intro hnode
      exact lookup_of_mem (h.nodup_locations htree) (h.nodes.mem_iff.mpr (mem_of_lookup hnode))

/-- A tree is one in whatever order its places are listed. -/
theorem Relists.isTree : disk'.IsTree where
  nodup_locations := h.nodup_locations htree
  isName e he := htree.isName e (h.nodes.mem_iff.mp he)
  ne_nil e he := htree.ne_nil e (h.nodes.mem_iff.mp he)
  isFolder_dropLast e he := by
    rw [(h.agrees htree).toExtends.isFolder_eq]
    exact htree.isFolder_dropLast e (h.nodes.mem_iff.mp he)
  isFolder_home := by
    rw [(h.agrees htree).toExtends.isFolder_eq, h.home]
    exact htree.isFolder_home

end

/-- What is listed at a place is what is there. -/
theorem IsTree.node?_of_mem (h : disk.IsTree) {e : Location × Node} (he : e ∈ disk.nodes) :
    disk.node? e.1 = some e.2 := by
  rw [node?, if_neg (h.ne_nil e he)]
  exact lookup_of_mem h.nodup_locations he

/-- What is at a place is listed there. -/
theorem mem_of_node? (hloc : loc ≠ []) (h : disk.node? loc = some node) : (loc, node) ∈ disk.nodes := by
  rw [node?, if_neg hloc] at h
  exact mem_of_lookup h

/-- **Trees with the same at every place** list the same places. -/
theorem Agrees.relists (h : Agrees disk' disk) (htree : disk.IsTree) (htree' : disk'.IsTree) :
    Relists disk' disk := by
  refine ⟨h.home, (List.perm_ext_iff_of_nodup htree'.nodup_locations.of_map htree.nodup_locations.of_map).mpr ?_⟩
  intro e
  constructor
  · intro he
    exact mem_of_node? (htree'.ne_nil e he) ((h.node? e.1).symm.trans (htree'.node?_of_mem he))
  · intro he
    exact mem_of_node? (htree.ne_nil e he) ((h.node? e.1).trans (htree.node?_of_mem he))

/-- Trees with the same at every place that list their places in the same order are the same. -/
theorem Agrees.eq (h : Agrees disk' disk) (htree : disk.IsTree) (htree' : disk'.IsTree)
    (hlisted : disk'.nodes.map Prod.fst = disk.nodes.map Prod.fst) : disk' = disk := by
  have hlength : disk'.nodes.length = disk.nodes.length := by
    rw [← List.length_map (f := Prod.fst), hlisted, List.length_map]
  have hnodes : disk'.nodes = disk.nodes := by
    refine List.ext_getElem hlength fun i hi hi' => ?_
    have hloc : (disk'.nodes[i]).1 = (disk.nodes[i]).1 := by
      have hget := List.getElem_of_eq hlisted (i := i) (by simpa using hi)
      rwa [List.getElem_map, List.getElem_map] at hget
    have hnode := htree.node?_of_mem (List.getElem_mem hi')
    rw [← h.node?, ← hloc, htree'.node?_of_mem (List.getElem_mem hi)] at hnode
    exact Prod.ext hloc (Option.some.inj hnode)
  cases disk
  cases disk'
  exact congrArg₂ Disk.mk h.home hnodes

/-- A disk with more files has the names that were there. -/
theorem Extends.names_subset (h : Extends disk disk') (hn : n ∈ disk.names D) : n ∈ disk'.names D := by
  obtain ⟨node, hnode⟩ := mem_names_iff.mp hn
  rcases h.node (D ++ [n]) with heq | ⟨-, -, bytes, hfile⟩
  · exact mem_names_iff.mpr ⟨node, heq.trans hnode⟩
  · exact mem_names_iff.mpr ⟨_, hfile⟩

/-! ### Putting a node -/

/-- Another place is looked up behind the first one. -/
theorem lookup_cons_of_ne {l k : Location} (h : l ≠ k) (m : Node) (nodes : List (Location × Node)) :
    ((k, m) :: nodes).lookup l = nodes.lookup l := by
  rw [List.lookup_cons, beq_false_of_ne h]

/-- What is put at a listed place is looked up there, and nothing else changes. -/
theorem lookup_map_put (nodes : List (Location × Node)) (loc : Location) (node : Node) (l : Location) :
    (nodes.map fun e => if e.1 = loc then (e.1, node) else (e.1, e.2)).lookup l
      = if l = loc then (nodes.lookup loc).map fun _ => node else nodes.lookup l := by
  induction nodes with
  | nil => simp
  | cons e nodes ih =>
    obtain ⟨k, m⟩ := e
    rw [List.map_cons]
    by_cases hk : k = loc
    · rw [if_pos hk]
      subst hk
      by_cases hl : l = k
      · subst hl
        simp
      · rw [lookup_cons_of_ne hl, ih, if_neg hl, if_neg hl, lookup_cons_of_ne hl]
    · rw [if_neg hk]
      by_cases hlk : l = k
      · subst hlk
        simp [hk]
      · rw [lookup_cons_of_ne hlk, ih, lookup_cons_of_ne hlk, lookup_cons_of_ne (Ne.symm hk)]

/-- **A node that is put at a place is there, and nothing else has changed.** -/
theorem node?_put (hloc : loc ≠ []) (node : Node) (l : Location) :
    (disk.put loc node).node? l = if l = loc then some node else disk.node? l := by
  unfold node?
  by_cases hl : l = []
  · rw [if_pos hl, if_pos hl, if_neg (by rintro rfl; exact hloc hl)]
  · rw [if_neg hl, if_neg hl, put]
    split
    · next hany =>
      obtain ⟨e, he, hkey⟩ := List.any_eq_true.mp hany
      have hsome : ∃ m, disk.nodes.lookup loc = some m := by
        cases hlookup : disk.nodes.lookup loc with
        | some m => exact ⟨m, rfl⟩
        | none =>
          have hne := List.lookup_eq_none_iff.mp hlookup e he
          simp_all
      obtain ⟨m, hm⟩ := hsome
      have hput := lookup_map_put disk.nodes loc node l
      rw [hm] at hput
      exact hput
    · next hany =>
      have hnone : disk.nodes.lookup loc = none := by
        refine List.lookup_eq_none_iff.mpr fun e he => ?_
        have hkey : e.1 ≠ loc := fun heq => hany (List.any_eq_true.mpr ⟨e, he, decide_eq_true heq⟩)
        simpa using Ne.symm hkey
      rw [List.lookup_append]
      by_cases hll : l = loc
      · subst hll
        simp [hnone]
      · rw [if_neg hll, lookup_cons_of_ne hll, List.lookup_nil, Option.or_none]

/-- Putting something on a disk does not change the working folder. -/
theorem home_put (loc : Location) (node : Node) : (disk.put loc node).home = disk.home := by
  unfold put
  split <;> rfl

/-- Putting something at a place lists the place, if it was not. -/
theorem locations_put (loc : Location) (node : Node) :
    (disk.put loc node).nodes.map Prod.fst
      = if loc ∈ disk.nodes.map Prod.fst then disk.nodes.map Prod.fst
        else disk.nodes.map Prod.fst ++ [loc] := by
  have hany : disk.nodes.any (·.1 = loc) = true ↔ loc ∈ disk.nodes.map Prod.fst := by simp
  unfold put
  split
  · next h =>
    rw [if_pos (hany.mp h), List.map_map]
    refine List.map_congr_left fun e _ => ?_
    by_cases he : e.1 = loc <;> simp [he]
  · next h => rw [if_neg (mt hany.mpr h), List.map_append, List.map_singleton]

/-- Putting something at a place lists no place twice. -/
theorem nodup_put (h : (disk.nodes.map Prod.fst).Nodup) (loc : Location) (node : Node) :
    ((disk.put loc node).nodes.map Prod.fst).Nodup := by
  rw [locations_put]
  split
  · exact h
  · next hnew => exact List.concat_eq_append ▸ h.concat hnew

/-- A place listed after a node was put is the place of that node, or was listed before. -/
theorem eq_or_mem_of_mem_put {e : Location × Node} (h : e ∈ (disk.put loc node).nodes) :
    e.1 = loc ∨ ∃ e' ∈ disk.nodes, e'.1 = e.1 := by
  have hmem := List.mem_map_of_mem (f := Prod.fst) h
  rw [locations_put] at hmem
  split at hmem
  · exact .inr (List.mem_map.mp hmem)
  · rcases List.mem_append.mp hmem with hmem | hmem
    · exact .inr (List.mem_map.mp hmem)
    · exact .inl (List.mem_singleton.mp hmem)

/-- The way to a folder goes over names. -/
theorem IsTree.isName_of_isFolder (h : disk.IsTree) (hD : disk.isFolder D = true) :
    ∀ n ∈ D, Path.IsName n := by
  by_cases hnil : D = []
  · simp [hnil]
  · unfold isFolder node? at hD
    rw [if_neg hnil] at hD
    split at hD
    · next hnode => exact h.isName _ (mem_of_lookup hnode)
    · cases hD

/-- **Writing a file in a folder leaves a tree.** -/
theorem IsTree.put_file (h : disk.IsTree) (hD : disk.isFolder D = true) (hn : Path.IsName n)
    (hfile : disk.isFolder (D ++ [n]) = false) (bytes : Bytes) :
    (disk.put (D ++ [n]) (.file bytes)).IsTree := by
  have hput : ∀ l, disk.isFolder l = true → (disk.put (D ++ [n]) (.file bytes)).isFolder l = true := by
    intro l hl
    have hne : l ≠ D ++ [n] := by
      rintro rfl
      rw [hfile] at hl
      cases hl
    unfold isFolder
    rw [node?_put (by simp), if_neg hne]
    exact hl
  refine ⟨nodup_put h.nodup_locations _ _, fun e he => ?_, fun e he => ?_, fun e he => ?_, ?_⟩
  · rcases eq_or_mem_of_mem_put he with hloc | ⟨e', he', hloc⟩
    · rw [hloc]
      intro m hm
      rcases List.mem_append.mp hm with hm | hm
      · exact h.isName_of_isFolder hD m hm
      · rwa [List.mem_singleton.mp hm]
    · exact hloc ▸ h.isName e' he'
  · rcases eq_or_mem_of_mem_put he with hloc | ⟨e', he', hloc⟩
    · simp [hloc]
    · exact hloc ▸ h.ne_nil e' he'
  · rcases eq_or_mem_of_mem_put he with hloc | ⟨e', he', hloc⟩
    · rw [hloc, List.dropLast_concat]
      exact hput D hD
    · exact hput _ (hloc ▸ h.isFolder_dropLast e' he')
  · rw [home_put]
    exact hput _ h.isFolder_home

end Disk

end BidiSheet
