import BidiSheet.Path.Output
import BidiSheet.Proofs.Byte
import BidiSheet.Settings

/-!
# Paths and names

The path of a name in a folder leads through the folder's path and then to the name. This is said in
three ways, one for each use of a path: of its steps, which a disk follows (`Path.steps_join`); of its marks,
the steps that are not idle, which decide where it leads and how it is ordered (`Path.marks_join`); and of
its last name, which decides whether it is a stylesheet and what its output is called
(`Path.split?_join`). The folder that a path is split into is written without idle steps at its end
(`Path.trimmed`), but has the same marks (`Path.marks_trimmed`).

The output of a stylesheet has a name that no stylesheet has, and different stylesheets of one folder have
different outputs (`Path.not_wants_outputName`, `Path.outputName_injective`).
-/

namespace BidiSheet

namespace Path

/-! ### Names -/

/-- A name that a file or a folder may have. -/
structure IsName (n : Bytes) : Prop where
  not_isIdle : isIdle n = false
  ne_up : n ≠ [dot, dot]
  slash_not_mem : slash ∉ n
  nul_not_mem : nul ∉ n

instance (n : Bytes) : Decidable (IsName n) :=
  decidable_of_iff (isIdle n = false ∧ n ≠ [dot, dot] ∧ slash ∉ n ∧ nul ∉ n)
    ⟨fun ⟨h₁, h₂, h₃, h₄⟩ => ⟨h₁, h₂, h₃, h₄⟩, fun ⟨h₁, h₂, h₃, h₄⟩ => ⟨h₁, h₂, h₃, h₄⟩⟩

theorem IsName.ne_nil {n : Bytes} (h : IsName n) : n ≠ [] := by
  rintro rfl
  cases h.not_isIdle

/-- A step that leads from a folder to something in it, whether or not a disk may have such a name. -/
structure IsEntry (n : Bytes) : Prop where
  not_isIdle : isIdle n = false
  ne_up : n ≠ [dot, dot]
  slash_not_mem : slash ∉ n

/-- A name can be the last component of a path. -/
theorem IsName.isEntry {n : Bytes} (h : IsName n) : IsEntry n :=
  ⟨h.not_isIdle, h.ne_up, h.slash_not_mem⟩

/-- The dot before an extension divides no names. -/
@[simp] theorem dot_ne_slash : dot ≠ slash := by decide

/-! ### Steps and marks -/

/-- What stands between the slashes of a path. -/
def steps (p : Path) : List Bytes := p.raw.splitOn slash

/-- The steps of a path that are not idle. -/
def marks (p : Path) : List Bytes := p.chunks.filter (!isIdle ·)

/-- A slash at the beginning is the anchor of a path. -/
theorem anchor_of_slash (t : Bytes) : (⟨slash :: t⟩ : Path).anchor = [slash] := rfl

/-- A dot is the anchor of a path if it is the whole first name. -/
theorem anchor_of_dot {t : Bytes} (h : t = [] ∨ t.head? = some slash) : (⟨dot :: t⟩ : Path).anchor = [dot] := by
  rcases h with rfl | h
  · rfl
  · obtain ⟨u, rfl⟩ := List.head?_eq_some_iff.mp h
    simp [anchor]

/-- A path that begins in another way has no anchor. -/
theorem anchor_of_ne {b : UInt8} {t : Bytes} (hb : b ≠ slash) (ht : b = dot → ∃ c u, t = c :: u ∧ c ≠ slash) :
    (⟨b :: t⟩ : Path).anchor = [] := by
  have hnone : ¬ (b :: t).takeWhile (· ≠ slash) = [dot] := by
    intro htake
    rw [List.takeWhile_cons_of_pos (by simpa using hb), List.cons.injEq] at htake
    obtain ⟨c, u, rfl, hc⟩ := ht htake.1
    rw [List.takeWhile_cons_of_pos (by simpa using hc)] at htake
    exact List.cons_ne_nil _ _ htake.2
  unfold anchor
  rw [if_neg (by simpa using hb), if_neg hnone]

/-- How a path may begin, and the anchor that it then has. -/
theorem anchor_cases (p : Path) :
    (∃ t, p.raw = slash :: t ∧ p.anchor = [slash]) ∨
    (∃ t, p.raw = dot :: t ∧ (t = [] ∨ t.head? = some slash) ∧ p.anchor = [dot]) ∨ p.anchor = [] := by
  obtain ⟨raw⟩ := p
  cases raw with
  | nil => exact .inr (.inr rfl)
  | cons b t =>
    by_cases hslash : b = slash
    · exact .inl ⟨t, by rw [hslash], by rw [hslash, anchor_of_slash]⟩
    by_cases hdot : b = dot ∧ (t = [] ∨ t.head? = some slash)
    · obtain ⟨rfl, ht⟩ := hdot
      exact .inr (.inl ⟨t, rfl, ht, anchor_of_dot ht⟩)
    · refine .inr (.inr (anchor_of_ne hslash fun hb => ?_))
      cases t with
      | nil => exact absurd ⟨hb, .inl rfl⟩ hdot
      | cons c u => exact ⟨c, u, rfl, fun hc => hdot ⟨hb, .inr (by rw [hc]; rfl)⟩⟩

/-- The anchor is the beginning of the path. -/
theorem anchor_prefix (p : Path) : p.anchor <+: p.raw := by
  obtain ⟨t, hraw, hanchor⟩ | ⟨t, hraw, -, hanchor⟩ | hanchor := p.anchor_cases
  · exact ⟨t, by rw [hraw, hanchor]; rfl⟩
  · exact ⟨t, by rw [hraw, hanchor]; rfl⟩
  · rw [hanchor]
    exact List.nil_prefix

/-- A path is its anchor and what stands between the slashes behind it. -/
theorem anchor_append_intercalate (p : Path) : p.anchor ++ [slash].intercalate p.chunks = p.raw := by
  obtain ⟨t, ht⟩ := p.anchor_prefix
  rw [chunks, List.intercalate_splitOn, ← ht, List.drop_left]

/-- The steps and what stands behind the anchor differ in idle steps only. -/
theorem filter_steps (p : Path) : p.steps.filter (!isIdle ·) = p.marks := by
  unfold marks chunks steps
  obtain ⟨t, hraw, hanchor⟩ | ⟨t, hraw, ht, hanchor⟩ | hanchor := p.anchor_cases
  · rw [hraw, hanchor]
    rfl
  · rw [hraw, hanchor]
    rcases ht with rfl | ht
    · rfl
    · obtain ⟨u, rfl⟩ := List.head?_eq_some_iff.mp ht
      rfl
  · rw [hanchor]
    rfl

/-! ### The path of a name in a folder -/

/-- The path of a folder is the beginning of the paths in it. -/
theorem prefix_join (q : Path) (n : Bytes) : q.raw <+: (q.join n).raw := by
  unfold join
  split <;> exact List.prefix_append _ _

/-- The bytes of a name are in its path. -/
theorem mem_join {q : Path} {n : Bytes} {c : UInt8} (h : c ∈ n) : c ∈ (q.join n).raw := by
  unfold join
  split <;> simp [h]

/-- A path in a folder has no bytes but those of the folder and the name, and slashes. -/
theorem mem_of_mem_join {q : Path} {n : Bytes} {c : UInt8} (h : c ∈ (q.join n).raw) :
    c ∈ q.raw ∨ c = slash ∨ c ∈ n := by
  unfold join at h
  split at h <;> simp only [List.mem_append, List.mem_cons] at h
  · exact h.imp_right .inr
  · exact h

/-- A name makes the path of its folder longer by its own length. -/
theorem length_join (q : Path) (n : Bytes) :
    (q.join n).raw.length = (q.join []).raw.length + n.length := by
  unfold join
  split
  · simp
  · simp only [List.length_append, List.length_cons, List.length_nil]
    omega

/-- A name behind a slash is the last part between slashes. -/
theorem splitOn_append_slash {n : Bytes} (hn : slash ∉ n) (t : Bytes) :
    (t ++ slash :: n).splitOn slash = t.splitOn slash ++ [n] := by
  rw [List.splitOn_append_cons_self, List.splitOn_eq_singleton hn]

/-- At the beginning, or behind a slash, an empty part waits for a name. -/
theorem splitOn_append_of_slash {t : Bytes} (ht : t = [] ∨ t.getLast? = some slash) :
    ∃ front, t.splitOn slash = front ++ [[]] ∧
      ∀ n : Bytes, slash ∉ n → (t ++ n).splitOn slash = front ++ [n] := by
  rcases ht with rfl | ht
  · exact ⟨[], rfl, fun n hn => List.splitOn_eq_singleton hn⟩
  · obtain ⟨s, rfl⟩ := List.getLast?_eq_some_iff.mp ht
    refine ⟨s.splitOn slash, splitOn_append_slash List.not_mem_nil s, fun n hn => ?_⟩
    rw [List.append_assoc, List.singleton_append, splitOn_append_slash hn]

/-- The steps of a name in a folder are those of the folder, without an empty one at the end, and the
name. -/
theorem steps_join (q : Path) :
    ∃ front, (q.steps = front ∨ q.steps = front ++ [[]]) ∧
      ∀ n, slash ∉ n → (q.join n).steps = front ++ [n] := by
  by_cases h : q.raw = [] ∨ q.raw.getLast? = some slash
  · obtain ⟨front, hfront, hjoin⟩ := splitOn_append_of_slash h
    refine ⟨front, .inr hfront, fun n hn => ?_⟩
    rw [steps, join, if_pos (by simpa using h), hjoin n hn]
  · refine ⟨q.steps, .inl rfl, fun n hn => ?_⟩
    rw [steps, join, if_neg (by simpa using h), splitOn_append_slash hn, steps]

/-- A path that goes on behind another one has its anchor. -/
theorem anchor_append {t w : Bytes} (ht : t ≠ []) (hw : t = [dot] → w.head? = some slash) :
    (⟨t ++ w⟩ : Path).anchor = (⟨t⟩ : Path).anchor := by
  obtain ⟨b, t, rfl⟩ := List.exists_cons_of_ne_nil ht
  obtain ⟨u, hraw, hanchor⟩ | ⟨u, hraw, hu, hanchor⟩ | hanchor := anchor_cases ⟨b :: t⟩
  · cases hraw
    rfl
  · cases hraw
    rw [hanchor]
    refine anchor_of_dot ?_
    rcases hu with rfl | hu
    · exact .inr (hw rfl)
    · obtain ⟨v, rfl⟩ := List.head?_eq_some_iff.mp hu
      exact .inr rfl
  · rw [hanchor]
    apply anchor_of_ne
    · rintro rfl
      cases hanchor
    · rintro rfl
      cases t with
      | nil => cases hanchor
      | cons c t =>
        refine ⟨c, t ++ w, rfl, ?_⟩
        rintro rfl
        rw [anchor_of_dot (.inr rfl)] at hanchor
        cases hanchor

section

variable {q : Path} (hq : q.raw ≠ []) {n : Bytes}

include hq

/-- A name behind a path does not change its anchor. -/
theorem anchor_join (n : Bytes) : (q.join n).anchor = q.anchor := by
  unfold join
  split
  · next h =>
    refine anchor_append hq fun hdot => ?_
    rw [hdot] at h
    exact absurd h (by decide)
  · exact anchor_append hq fun _ => rfl

/-- The same holds behind the anchor. -/
theorem chunks_join (hn : slash ∉ n) :
    ∃ front, (q.join n).chunks = front ++ [n] ∧ (q.chunks = front ∨ q.chunks = front ++ [[]]) := by
  have hanchor := anchor_join hq n
  have hle : q.anchor.length ≤ q.raw.length := q.anchor_prefix.length_le
  unfold chunks
  rw [hanchor]
  unfold join
  split
  · next h =>
    have hlast : q.raw.drop q.anchor.length = [] ∨
        (q.raw.drop q.anchor.length).getLast? = some slash := by
      have hslash : q.raw.getLast? = some slash := by simpa [hq] using h
      rw [List.getLast?_drop]
      split
      · next hdrop => exact .inl (List.drop_of_length_le hdrop)
      · exact .inr hslash
    obtain ⟨front, hfront, hjoin⟩ := splitOn_append_of_slash hlast
    refine ⟨front, ?_, .inr hfront⟩
    rw [List.drop_append_of_le_length hle, hjoin n hn]
  · refine ⟨_, ?_, .inl rfl⟩
    rw [List.drop_append_of_le_length hle, splitOn_append_slash hn]

/-- A name behind a path is one more mark. -/
theorem marks_join (hn : IsEntry n) : (q.join n).marks = q.marks ++ [n] := by
  obtain ⟨front, hjoin, hfront⟩ := chunks_join hq hn.slash_not_mem
  have hmarks : q.marks = front.filter (!isIdle ·) := by
    rcases hfront with h | h
    · rw [marks, h]
    · rw [marks, h, List.filter_append]
      exact List.append_nil _
  rw [hmarks, marks, hjoin, List.filter_append, List.filter_cons_of_pos (by simp [hn.not_isIdle]),
    List.filter_nil]

end

/-! ### The folder of a path -/

/-- Idle steps are dropped from the end. -/
theorem dropIdle_eq (xs : List Bytes) : dropIdle xs = xs.rdropWhile isIdle := rfl

/-- An idle step at the end is dropped. -/
theorem dropIdle_append_idle (xs : List Bytes) {x : Bytes} (hx : isIdle x = true) :
    dropIdle (xs ++ [x]) = dropIdle xs :=
  List.rdropWhile_concat_pos _ _ _ hx

/-- A step that is not idle stays, and keeps what stands before it. -/
theorem dropIdle_append {x : Bytes} (hx : isIdle x = false) (xs : List Bytes) :
    dropIdle (xs ++ [x]) = xs ++ [x] :=
  List.rdropWhile_concat_neg _ _ _ (by simp [hx])

/-- Dropping idle steps at the end drops no others. -/
theorem filter_dropIdle (xs : List Bytes) :
    (dropIdle xs).filter (!isIdle ·) = xs.filter (!isIdle ·) := by
  induction xs using List.reverseRecOn with
  | nil => rfl
  | append_singleton xs x ih =>
    rcases hx : isIdle x with _ | _
    · rw [dropIdle_append hx]
    · rw [dropIdle_append_idle xs hx, ih, List.filter_append]
      simp [hx]

/-- A path without idle steps at its end. -/
def trimmed (q : Path) : Path := ⟨q.anchor ++ [slash].intercalate (dropIdle q.chunks)⟩

/-- **A name in a folder is split into the folder and the name.** -/
theorem split?_join {q : Path} (hq : q.raw ≠ []) {n : Bytes} (hn : IsEntry n) :
    (q.join n).split? = some (q.trimmed, n) := by
  obtain ⟨front, hjoin, hfront⟩ := chunks_join hq hn.slash_not_mem
  have hchunks : dropIdle (q.join n).chunks = front ++ [n] := by
    rw [hjoin, dropIdle_append hn.not_isIdle]
  have hdrop : dropIdle q.chunks = dropIdle front := by
    rcases hfront with h | h
    · rw [h]
    · rw [h, dropIdle_append_idle front rfl]
  unfold split?
  simp only [hchunks, List.getLast?_concat, if_neg hn.ne_up, List.dropLast_concat, trimmed,
    anchor_join hq, hdrop]

/-- Paths that become the same by a name are the same without idle steps. -/
theorem trimmed_eq_of_join_eq {q q' : Path} (hq : q.raw ≠ []) (hq' : q'.raw ≠ []) {n : Bytes} (hn : IsEntry n)
    (h : q.join n = q'.join n) : q.trimmed = q'.trimmed := by
  have hsplit := split?_join hq hn
  rw [h, split?_join hq' hn] at hsplit
  exact (Prod.mk.inj (Option.some.inj hsplit)).1.symm

/-- A path that ends in a name has no idle steps at its end. -/
theorem trimmed_join {q : Path} (hq : q.raw ≠ []) {n : Bytes} (hn : IsEntry n) : (q.join n).trimmed = q.join n := by
  obtain ⟨front, hjoin, -⟩ := chunks_join hq hn.slash_not_mem
  have hchunks : dropIdle (q.join n).chunks = (q.join n).chunks := by
    rw [hjoin, dropIdle_append hn.not_isIdle]
  rw [trimmed, hchunks, anchor_append_intercalate]

/-- Fewer parts make a shorter path with the same beginning. -/
theorem intercalate_prefix {xs ys : List Bytes} (h : xs <+: ys) :
    [slash].intercalate xs <+: [slash].intercalate ys := by
  induction xs generalizing ys with
  | nil => exact List.nil_prefix
  | cons x xs ih =>
    obtain ⟨zs, rfl⟩ := h
    cases xs with
    | nil =>
      cases zs with
      | nil => exact List.prefix_refl _
      | cons z zs =>
        rw [List.singleton_append, List.intercalate_cons_cons]
        simp
    | cons x' xs =>
      have htail := ih (List.prefix_append (x' :: xs) zs)
      rw [List.cons_append, List.cons_append, List.intercalate_cons_cons, List.intercalate_cons_cons,
        List.append_assoc, List.append_assoc]
      exact List.prefix_append_right_inj _ |>.mpr (List.prefix_append_right_inj _ |>.mpr htail)

/-- A trimmed path is the beginning of the path. -/
theorem trimmed_prefix (q : Path) : q.trimmed.raw <+: q.raw := by
  have h := intercalate_prefix (List.rdropWhile_prefix isIdle q.chunks)
  rw [← anchor_append_intercalate q]
  exact (List.prefix_append_right_inj _).mpr h

/-- A path without an anchor begins with a step that is not idle. -/
theorem chunks_of_anchor_eq_nil {q : Path} (hq : q.raw ≠ []) (hanchor : q.anchor = []) :
    ∃ x xs, q.chunks = x :: xs ∧ isIdle x = false := by
  obtain ⟨c, t, ht⟩ := List.exists_cons_of_ne_nil hq
  obtain ⟨x, xs, hx⟩ := List.exists_cons_of_ne_nil (List.splitOn_ne_nil slash t)
  have hjoin : [slash].intercalate (x :: xs) = t := by rw [← hx, List.intercalate_splitOn]
  have hslash : c ≠ slash := by
    rintro rfl
    simp [anchor, ht] at hanchor
  refine ⟨c :: x, xs, ?_, ?_⟩
  · rw [chunks, hanchor, List.length_nil, List.drop_zero, ht, List.splitOn_cons_eq_if_modifyHead,
      if_neg (by simpa using hslash), hx, List.modifyHead_cons]
  · -- otherwise the path is a single dot, or goes on with a slash behind it
    by_contra hidle
    obtain ⟨rfl, rfl⟩ : c = dot ∧ x = [] := by simpa [isIdle] using hidle
    have hdot : q.anchor = [dot] := by
      rw [show q = ⟨dot :: t⟩ from congrArg Path.mk ht]
      apply anchor_of_dot
      cases xs with
      | nil => exact .inl (hjoin.symm.trans List.intercalate_singleton)
      | cons x' xs =>
        rw [List.intercalate_cons_cons] at hjoin
        exact .inr (by rw [← hjoin]; rfl)
    rw [hdot] at hanchor
    cases hanchor

/-- Without an anchor, a trimmed path still begins with a step that is not idle. -/
theorem exists_prefix_trimmed {q : Path} (hq : q.raw ≠ []) (hanchor : q.anchor = []) :
    ∃ x, isIdle x = false ∧ x <+: q.trimmed.raw := by
  obtain ⟨x, xs, hchunks, hx⟩ := chunks_of_anchor_eq_nil hq hanchor
  refine ⟨x, hx, ?_⟩
  rw [trimmed, hanchor, List.nil_append]
  cases hdrop : dropIdle q.chunks with
  | nil =>
    have hall := List.rdropWhile_eq_nil_iff.mp hdrop x (by rw [hchunks]; exact List.mem_cons_self)
    rw [hx] at hall
    cases hall
  | cons y ys =>
    have hpre := List.rdropWhile_prefix isIdle q.chunks
    rw [← dropIdle_eq, hdrop, hchunks, List.cons_prefix_cons] at hpre
    have hsingle := intercalate_prefix (List.prefix_append [y] ys)
    rwa [List.intercalate_singleton, ← hpre.1] at *

theorem trimmed_ne_nil {q : Path} (hq : q.raw ≠ []) : q.trimmed.raw ≠ [] := by
  intro hnil
  obtain ⟨x, hx, hpre⟩ := exists_prefix_trimmed hq (List.append_eq_nil_iff.mp hnil).1
  rw [hnil, List.prefix_nil] at hpre
  subst hpre
  cases hx

/-- Dropping idle steps keeps the anchor. -/
theorem anchor_trimmed {q : Path} (hq : q.raw ≠ []) : q.trimmed.anchor = q.anchor := by
  obtain ⟨w, hw⟩ := q.trimmed_prefix
  by_cases hnil : w = []
  · rw [hnil, List.append_nil] at hw
    rw [show q.trimmed = q from congrArg Path.mk hw]
  · have hslash : q.trimmed.raw = [dot] → w.head? = some slash := by
      intro hdot
      rw [hdot] at hw
      obtain ⟨d, w', rfl⟩ := List.exists_cons_of_ne_nil hnil
      by_contra hd
      have hanchor : q.anchor = [] := by
        rw [show q = ⟨dot :: d :: w'⟩ from congrArg Path.mk hw.symm]
        exact anchor_of_ne dot_ne_slash fun _ => ⟨d, w', rfl, by simpa using hd⟩
      obtain ⟨x, hx, hpre⟩ := exists_prefix_trimmed hq hanchor
      rw [hdot, List.prefix_cons_iff] at hpre
      rcases hpre with rfl | ⟨t, rfl, ht⟩
      · cases hx
      · rw [List.prefix_nil.mp ht] at hx
        cases hx
    have happend := anchor_append (trimmed_ne_nil hq) hslash
    rw [hw] at happend
    exact happend.symm

/-- What stands between slashes has none. -/
theorem slash_not_mem_of_mem_splitOn {t x : Bytes} (h : x ∈ t.splitOn slash) : slash ∉ x := by
  induction t generalizing x with
  | nil => simp_all
  | cons c t ih =>
    rw [List.splitOn_cons_eq_if_modifyHead] at h
    split at h
    · rcases List.mem_cons.mp h with rfl | h
      · exact List.not_mem_nil
      · exact ih h
    · next hc =>
      obtain ⟨y, ys, hy⟩ := List.exists_cons_of_ne_nil (List.splitOn_ne_nil slash t)
      rw [hy, List.modifyHead_cons] at h
      rw [hy] at ih
      rcases List.mem_cons.mp h with rfl | h
      · have hne : slash ≠ c := by
          rintro rfl
          simp at hc
        simp [hne, ih List.mem_cons_self]
      · exact ih (List.mem_cons_of_mem y h)

/-- A trimmed path has the steps of the path up to the last one that is not idle. -/
theorem dropIdle_chunks_trimmed {q : Path} (hq : q.raw ≠ []) :
    dropIdle q.trimmed.chunks = dropIdle q.chunks := by
  have hchunks : q.trimmed.chunks = ([slash].intercalate (dropIdle q.chunks)).splitOn slash := by
    rw [chunks, anchor_trimmed hq, trimmed, List.drop_left]
  rw [hchunks]
  by_cases hnil : dropIdle q.chunks = []
  · rw [hnil]
    rfl
  · rw [List.splitOn_intercalate slash (fun x hx => ?_) hnil]
    · exact List.rdropWhile_idempotent isIdle q.chunks
    · exact slash_not_mem_of_mem_splitOn ((List.rdropWhile_prefix isIdle q.chunks).subset hx)

/-- **A trimmed path has the marks of the path.** -/
theorem marks_trimmed {q : Path} (hq : q.raw ≠ []) : q.trimmed.marks = q.marks := by
  rw [marks, ← filter_dropIdle, dropIdle_chunks_trimmed hq, filter_dropIdle, marks]

/-- A path is trimmed once. -/
theorem trimmed_trimmed {q : Path} (hq : q.raw ≠ []) : q.trimmed.trimmed = q.trimmed := by
  rw [trimmed, anchor_trimmed hq, dropIdle_chunks_trimmed hq, trimmed]

/-! ### Order -/

/-- The component that an anchor is. -/
def anchorComponents (p : Path) : List Component :=
  if p.anchor = [slash] then [.root] else if p.anchor = [dot] then [.here] else []

/-- The components of a path are its anchor and its marks. -/
theorem components_eq (p : Path) :
    p.components
      = p.anchorComponents ++ p.marks.map fun c => if c = [dot, dot] then .up else .name c := rfl

/-- A name behind a path is one more component. -/
theorem components_join {q : Path} (hq : q.raw ≠ []) {n : Bytes} (hn : IsEntry n) :
    (q.join n).components = q.components ++ [.name n] := by
  rw [components_eq, components_eq, marks_join hq hn, List.map_append, List.map_singleton,
    if_neg hn.ne_up, List.append_assoc]
  unfold anchorComponents
  rw [anchor_join hq]

/-- Trimming a path does not change its components. -/
theorem components_trimmed {q : Path} (hq : q.raw ≠ []) : q.trimmed.components = q.components := by
  rw [components_eq, components_eq, marks_trimmed hq, anchorComponents, anchor_trimmed hq, anchorComponents]

/-- Components with the same key are the same. -/
theorem componentKey_injective : Function.Injective componentKey := by
  have hnames : Function.Injective (List.map UInt8.toNat) :=
    List.map_injective_iff.mpr fun a b h => UInt8.toNat_inj.mp h
  intro a b h
  cases a <;> cases b <;> simp_all [componentKey, hnames.eq_iff]

/-- Paths of the same order have the same components. -/
theorem components_eq_of_key_eq {p q : Path} (h : p.key = q.key) : p.components = q.components :=
  List.map_injective_iff.mpr componentKey_injective h

theorem le_trans {p q r : Path} (hpq : p.le q = true) (hqr : q.le r = true) : p.le r = true :=
  Std.TransCmp.isLE_trans hpq hqr

/-- Any two paths can be compared. -/
theorem le_total (p q : Path) : p.le q = true ∨ q.le p = true := by
  have hswap : List.compareLex (List.compareLex compare) q.key p.key
      = (List.compareLex (List.compareLex compare) p.key q.key).swap := Std.OrientedCmp.eq_swap
  unfold le
  rw [hswap]
  cases List.compareLex (List.compareLex compare) p.key q.key <;> decide

/-- Paths that are not before one another have the same key. -/
theorem key_eq_of_le {p q : Path} (hpq : p.le q = true) (hqp : q.le p = true) : p.key = q.key :=
  Std.LawfulEqCmp.eq_of_compare (Std.OrientedCmp.isLE_antisymm hpq hqp)

/-- The path that leads on from another one through some names. -/
def joins (root : Path) (names : List Bytes) : Path := names.foldl join root

/-- Names are joined one after the other. -/
theorem joins_append_singleton (root : Path) (names : List Bytes) (n : Bytes) :
    root.joins (names ++ [n]) = (root.joins names).join n := by
  simp [joins]

theorem join_ne_nil {q : Path} (hq : q.raw ≠ []) (n : Bytes) : (q.join n).raw ≠ [] :=
  fun h => hq (List.prefix_nil.mp (h ▸ prefix_join q n))

theorem joins_ne_nil {root : Path} (hroot : root.raw ≠ []) (names : List Bytes) :
    (root.joins names).raw ≠ [] := by
  induction names using List.reverseRecOn with
  | nil => exact hroot
  | append_singleton names n ih =>
    rw [joins_append_singleton]
    exact join_ne_nil ih n

/-- Each name below a root is a component of its own. -/
theorem components_joins {root : Path} (hroot : root.raw ≠ []) {names : List Bytes}
    (hnames : ∀ n ∈ names, IsName n) :
    (root.joins names).components = root.components ++ names.map .name := by
  induction names using List.reverseRecOn with
  | nil => exact (List.append_nil _).symm
  | append_singleton names n ih =>
    rw [joins_append_singleton, components_join (joins_ne_nil hroot names) (hnames n (by simp)).isEntry,
      ih fun m hm => hnames m (List.mem_append_left _ hm), List.map_append, List.append_assoc]
    rfl

/-- **Paths that lead on from one root are ordered strictly**, if they are different. -/
theorem joins_eq_of_key_eq {root : Path} (hroot : root.raw ≠ []) {names names' : List Bytes}
    (hnames : ∀ n ∈ names, IsName n) (hnames' : ∀ n ∈ names', IsName n)
    (h : (root.joins names).key = (root.joins names').key) : root.joins names = root.joins names' := by
  have hcomponents := components_eq_of_key_eq h
  rw [components_joins hroot hnames, components_joins hroot hnames', List.append_cancel_left_eq] at hcomponents
  have hinj : Function.Injective Component.name := fun a b h => by cases h; rfl
  rw [List.map_injective_iff.mpr hinj hcomponents]

/-! ### Names of stylesheets and of outputs -/

/-- A name is divided at its last dot. -/
theorem splitName_append {stem ext : Bytes} (hstem : stem ≠ []) (hext : dot ∉ ext) :
    splitName (stem ++ dot :: ext) = (stem, some ext) := by
  have hrev : (stem ++ dot :: ext).reverse = ext.reverse ++ dot :: stem.reverse := by simp
  have hdots : ∀ c ∈ ext.reverse, decide (c ≠ dot) = true := by
    intro c hc
    rw [decide_eq_true_eq]
    rintro rfl
    exact hext (List.mem_reverse.mp hc)
  have hdrop : (ext.reverse ++ dot :: stem.reverse).dropWhile (· ≠ dot) = dot :: stem.reverse := by
    rw [List.dropWhile_append_of_pos hdots]
    rfl
  have htake : (ext.reverse ++ dot :: stem.reverse).takeWhile (· ≠ dot) = ext.reverse := by
    rw [List.takeWhile_append_of_pos hdots]
    simp
  obtain ⟨c, cs, hcs⟩ := List.exists_cons_of_ne_nil (mt List.reverse_eq_nil_iff.mp hstem)
  unfold splitName
  rw [hrev, hdrop, htake, hcs]
  simp [← hcs]

/-- What a name is divided into, with the dot between, is the name. -/
theorem of_splitName {n stem ext : Bytes} (h : splitName n = (stem, some ext)) :
    n = stem ++ dot :: ext ∧ stem ≠ [] ∧ dot ∉ ext := by
  unfold splitName at h
  split at h
  · cases h
  · cases h
  · next c t hne hdrop =>
    obtain ⟨rfl, rfl⟩ : t.reverse = stem ∧ (n.reverse.takeWhile (· ≠ dot)).reverse = ext := by
      simpa using h
    have hc : c = dot := by
      have := List.head?_dropWhile_not (· ≠ dot) n.reverse
      rw [hdrop] at this
      simpa using this
    subst hc
    have hsplit := List.takeWhile_append_dropWhile (p := (· ≠ dot)) (l := n.reverse)
    rw [hdrop] at hsplit
    refine ⟨?_, ?_, ?_⟩
    · have := congrArg List.reverse hsplit
      simpa using this.symm
    · simpa using hne
    · intro hmem
      rw [List.mem_reverse] at hmem
      simpa using List.mem_takeWhile_imp hmem

section

variable {q : Path} (hq : q.raw ≠ []) {n : Bytes} (hn : IsEntry n)

include hq hn

/-- A path in a folder has the name that was joined. -/
theorem fileName?_join : (q.join n).fileName? = some n := by
  rw [fileName?, split?_join hq hn, Option.map_some]

/-- The extension of a path is that of its name. -/
theorem hasExtension_join (extension : Text) :
    (q.join n).hasExtension extension = ((splitName n).2.bind text?).any (sameWord extension) := by
  rw [hasExtension, extension?, fileName?_join hq hn, Option.bind_some]

/-- The stem of a path is that of its name. -/
theorem stem?_join : (q.join n).stem? = some (splitName n).1 := by
  rw [stem?, fileName?_join hq hn, Option.map_some]

/-- Whether a path is that of an output is seen from its name. -/
theorem isOutput_join (suffix : Text) :
    (q.join n).isOutput suffix = (text? (splitName n).1).any suffix.isSuffixOf := by
  rw [isOutput, stem?_join hq hn, Option.bind_some]

/-- The output of a path is written beside it. -/
theorem output?_join (suffix : Text) :
    (q.join n).output? suffix = (outputName? suffix n).map q.trimmed.join := by
  rw [output?, split?_join hq hn, Option.bind_some]

end

/-- There is a name for the output of a file exactly if its stem is a text. -/
theorem isSome_outputName? (suffix : Text) (n : Bytes) :
    (outputName? suffix n).isSome = (text? (splitName n).1).isSome :=
  Option.isSome_map

end Path

/-- Whether a file of some name is a stylesheet that wants reflecting: it has the extension, and its stem
is no text that ends in the suffix. -/
def Settings.wants (settings : Settings) (n : Bytes) : Bool :=
  ((Path.splitName n).2.bind text?).any (sameWord settings.extension) &&
    !(text? (Path.splitName n).1).any settings.suffix.isSuffixOf

/-- Which names are wanted, in terms of the stem and the extension. -/
theorem Settings.wants_iff {settings : Settings} {n : Bytes} :
    settings.wants n = true ↔
      (∃ extension, (Path.splitName n).2.bind text? = some extension ∧
        sameWord settings.extension extension = true) ∧
      (text? (Path.splitName n).1 = none ∨
        ∃ stem, text? (Path.splitName n).1 = some stem ∧ ¬ settings.suffix <:+ stem) := by
  rw [Settings.wants, Bool.and_eq_true, Bool.not_eq_true', Option.any_eq_true]
  refine and_congr_right fun _ => ?_
  cases text? (Path.splitName n).1 with
  | none => simp
  | some stem => simp [← List.isSuffixOf_iff_suffix]

namespace Path

section

variable {settings : Settings} {n m : Bytes} (h : settings.wants n = true)
  (hm : outputName? settings.suffix n = some m)

include h hm

/-- The name of a stylesheet that has an output falls into a stem and an extension, and the name of the output
has the suffix in between. -/
theorem exists_of_wants : ∃ stem extension : Text, stem ≠ [] ∧ '.' ∉ extension ∧
    sameWord settings.extension extension = true ∧ settings.suffix.isSuffixOf stem = false ∧
    n = bytes stem ++ dot :: bytes extension ∧
    m = bytes (stem ++ settings.suffix) ++ dot :: bytes extension := by
  unfold Settings.wants at h
  rw [Bool.and_eq_true, Bool.not_eq_true'] at h
  obtain ⟨hext, hsuffix⟩ := h
  obtain ⟨extension, hbind, hword⟩ := (Option.any_eq_true _ _).mp hext
  obtain ⟨raw, hraw, htext⟩ := Option.bind_eq_some_iff.mp hbind
  have hsplit : splitName n = ((splitName n).1, some raw) := by rw [← hraw]
  obtain ⟨hn, hne, hdot⟩ := of_splitName hsplit
  obtain ⟨stem, hstem, hout⟩ := Option.map_eq_some_iff.mp hm
  rw [hstem, Option.any_some] at hsuffix
  rw [hbind] at hout
  rw [text?_eq_some_iff] at htext hstem
  rw [hstem] at hn hne
  rw [htext] at hn hdot
  refine ⟨stem, extension, ?_, ?_, hword, hsuffix, hn, ?_⟩
  · rintro rfl
    exact hne rfl
  · exact fun hmem => hdot ((mem_bytes_iff (by decide)).mpr hmem)
  · rw [← hout]
    exact bytes_append _ _

/-- The name of an output falls into its stem and its extension again. -/
theorem splitName_of_wants : ∃ stem extension : Text, splitName m
    = (bytes (stem ++ settings.suffix), some (bytes extension)) ∧ n = bytes stem ++ dot :: bytes extension ∧
      sameWord settings.extension extension = true := by
  obtain ⟨stem, extension, hstem, hdot, hword, -, hn, rfl⟩ := exists_of_wants h hm
  refine ⟨stem, extension, splitName_append ?_ ?_, hn, hword⟩
  · intro hnil
    have hsize := congrArg List.length hnil
    rw [length_bytes, byteSize_append] at hsize
    have hpos := byteSize_pos hstem
    rw [List.length_nil] at hsize
    omega
  · exact fun hmem => hdot ((mem_bytes_iff (by decide)).mp hmem)

/-- The name of an output is longer by the suffix. -/
theorem length_outputName : m.length = n.length + byteSize settings.suffix := by
  obtain ⟨stem, extension, -, -, -, -, rfl, rfl⟩ := exists_of_wants h hm
  simp only [bytes_append, List.length_append, length_bytes, List.length_cons]
  omega

/-- **No output is a stylesheet that wants reflecting.** -/
theorem not_wants_outputName : settings.wants m = false := by
  obtain ⟨stem, extension, hsplit, -, -⟩ := splitName_of_wants h hm
  rw [Settings.wants, hsplit, text?_bytes, Option.any_some, Bool.and_eq_false_iff, Bool.not_eq_false']
  exact .inr (List.isSuffixOf_iff_suffix.mpr (List.suffix_append _ _))

/-- **Different stylesheets of one folder have different outputs.** -/
theorem outputName?_injective {n' : Bytes} (h' : settings.wants n' = true)
    (hm' : outputName? settings.suffix n' = some m) : n = n' := by
  obtain ⟨stem, extension, hsplit, rfl, -⟩ := splitName_of_wants h hm
  obtain ⟨stem', extension', hsplit', rfl, -⟩ := splitName_of_wants h' hm'
  rw [hsplit, Prod.mk.injEq, Option.some.injEq, bytes_append, bytes_append, List.append_cancel_right_eq] at hsplit'
  rw [hsplit'.1, hsplit'.2]

/-- The bytes of the suffix are in the name of an output. -/
theorem mem_outputName {b : UInt8} (hb : b ∈ bytes settings.suffix) : b ∈ m := by
  obtain ⟨stem, extension, -, -, -, -, -, rfl⟩ := exists_of_wants h hm
  simp [hb]

/-- The name of an output has no bytes but those of the name and the suffix. -/
theorem not_mem_outputName {b : UInt8} (hn : b ∉ n) (hb : b ∉ bytes settings.suffix) : b ∉ m := by
  obtain ⟨stem, extension, -, -, -, -, rfl, rfl⟩ := exists_of_wants h hm
  rw [bytes_append]
  simp only [List.mem_append, List.mem_cons, not_or] at hn ⊢
  exact ⟨⟨hn.1, hb⟩, hn.2⟩

/-- The name of an output can be the last component of a path. -/
theorem isEntry_outputName (hn : IsEntry n) (hsuffix : settings.suffix ≠ [])
    (hslash : '/' ∉ settings.suffix) : IsEntry m := by
  obtain ⟨stem, extension, hstem, -, -, -, rfl, -⟩ := exists_of_wants h hm
  have hlen : 3 ≤ m.length := by
    have h₁ := byteSize_pos hstem
    have h₂ := byteSize_pos hsuffix
    rw [length_outputName h hm, List.length_append, List.length_cons, length_bytes, length_bytes]
    omega
  have hslash' : slash ∉ bytes settings.suffix := fun hmem => hslash ((mem_bytes_iff (by decide)).mp hmem)
  refine ⟨?_, ?_, not_mem_outputName h hm hn.slash_not_mem hslash'⟩
  · rw [isIdle, Bool.or_eq_false_iff, decide_eq_false_iff_not, decide_eq_false_iff_not]
    constructor <;> intro hidle <;> rw [hidle] at hlen <;> simp at hlen
  · intro hup
    rw [hup] at hlen
    simp at hlen

/-- The name of an output is a name, if the suffix has neither a slash nor a zero byte. -/
theorem isName_outputName (hn : IsName n) (hsuffix : settings.suffix ≠ []) (hslash : '/' ∉ settings.suffix)
    (hnul : nul ∉ bytes settings.suffix) : IsName m := by
  obtain ⟨hidle, hup, hslash'⟩ := isEntry_outputName h hm hn.isEntry hsuffix hslash
  exact ⟨hidle, hup, hslash', not_mem_outputName h hm hn.nul_not_mem hnul⟩

end

end Path

end BidiSheet
