import BidiSheet.Proofs.Named

/-!
# What can be unmasked

Unmasking reads a text once from its front to its end and stops at the first opening character that it can
make nothing of. Here both outcomes are said without the reader. `Masked.Restores` relates a text to the text
with the spans put back, and `Masked.FirstFault` says which opening character of a text is the first that has
no span, and what is wrong with it. The two exclude each other, and unmasking answers with the one that holds
(`Masked.unmaskFrom_sound`).

* `Masked.unmask_exact`: a text is unmasked exactly if each of its opening characters begins a marker that has
  a span, and otherwise the fault is that of the first one that does not, at its byte in the whole text.
-/

namespace BidiSheet

open Marker (opener closer)

namespace Marker

variable {id : Nat} {w t : Text}

/-- The text `w` is a marker with number `id`, which may be written with zeros in front. -/
def IsMarker (id : Nat) (w : Text) : Prop :=
  ∃ digits : Text, w = opener :: (digits ++ [closer]) ∧ digits ≠ [] ∧ (∀ c ∈ digits, c.isDigit = true) ∧
    Nat.ofDigitChars 10 digits 0 = id ∧ id < bound

/-- A marker with number `id` stands at the front of a text. -/
def Begins (id : Nat) (t : Text) : Prop := ∃ w rest, t = w ++ rest ∧ IsMarker id w

/-- A marker stands at the front of any text that begins with it. -/
theorem IsMarker.begins (h : IsMarker id w) (t : Text) : Begins id (w ++ t) := ⟨w, t, rfl, h⟩

/-- A marker stands at the front of a text if it can be read there. -/
theorem begins_iff : Begins id t ↔ ∃ digits, read? t = some ⟨id, digits⟩ := by
  constructor
  · rintro ⟨_, rest, rfl, digits, rfl, hne, hdigits, rfl, hlt⟩
    rw [List.cons_append, List.append_assoc, List.singleton_append]
    exact ⟨_, read?_mark hdigits hne hlt rest⟩
  · rintro ⟨_, h⟩
    obtain ⟨digits, rest, rfl, hdigits, hne, hlt, hfound⟩ := exists_of_read? h
    obtain ⟨rfl, -⟩ := Found.mk.inj hfound
    exact ⟨opener :: (digits ++ [closer]), rest, by simp, digits, rfl, hne, hdigits, rfl, hlt⟩

/-- At most one number begins a text. -/
theorem Begins.unique {i j : Nat} (hi : Begins i t) (hj : Begins j t) : i = j := by
  obtain ⟨_, hi⟩ := begins_iff.mp hi
  obtain ⟨_, hj⟩ := begins_iff.mp hj
  rw [hi] at hj
  exact (Found.mk.inj (Option.some.inj hj)).1

/-- A marker opens only at its front. -/
theorem IsMarker.eq_nil_of_opener (h : IsMarker id w) {a b : Text} (heq : w = a ++ opener :: b) : a = [] := by
  obtain ⟨digits, rfl, -, hdigits, -⟩ := h
  cases a with
  | nil => rfl
  | cons c a =>
    have hmem : opener ∈ digits ++ [closer] := by
      rw [(List.cons.inj heq).2]
      exact List.mem_append_right a List.mem_cons_self
    rcases List.mem_append.mp hmem with hdigit | hcloser
    · exact absurd (hdigits _ hdigit) (by decide)
    · exact absurd (List.mem_singleton.mp hcloser) (by decide)

/-- Digits have one byte each. -/
theorem byteSize_of_isDigit {digits : Text} (h : ∀ c ∈ digits, c.isDigit = true) :
    byteSize digits = digits.length := by
  induction digits with
  | nil => rfl
  | cons d digits ih =>
    have hone : d.utf8Size = 1 := by
      have hd := h d List.mem_cons_self
      simp only [Char.isDigit, Bool.and_eq_true, decide_eq_true_eq] at hd
      exact Char.utf8Size_eq_one_iff.mpr (UInt32.le_trans hd.2 (by decide))
    rw [byteSize_cons, hone, ih fun c hc => h c (List.mem_cons_of_mem d hc), List.length_cons, Nat.add_comm]

/-- What stands behind a marker that is read, and how many bytes the marker has. -/
theorem exists_of_read?_cons {c : Char} {cs : Text} {found : Found} (h : read? (c :: cs) = some found) :
    ∃ w, IsMarker found.id w ∧ c :: cs = w ++ cs.drop (found.digits + 1) ∧ byteSize w = found.size := by
  obtain ⟨digits, rest, heq, hdigits, hne, hlt, rfl⟩ := exists_of_read? h
  obtain ⟨rfl, rfl⟩ := List.cons.inj heq
  refine ⟨opener :: (digits ++ [closer]), ⟨digits, rfl, hne, hdigits, rfl, hlt⟩, ?_, ?_⟩
  · rw [drop_digits, List.cons_append, List.append_assoc, List.singleton_append]
  · rw [byteSize_cons, byteSize_append, byteSize_of_isDigit hdigits]
    show 1 + (digits.length + 1) = digits.length + 2
    omega

end Marker

open Marker (IsMarker Begins)

namespace Masked

variable {spans : List Span} {offset : Nat} {t r : Text} {fault : Fault}

/-- A marker that has a span stands at the front of a text. -/
def Resolves (spans : List Span) (t : Text) : Prop := ∃ id < spans.length, Begins id t

/-- The text `r` is the text `t` with the text of a span in the place of each marker. -/
inductive Restores (spans : List Span) : (t r : Text) → Prop where
  | nil : Restores spans [] []
  | plain {c : Char} {t r : Text} (hc : c ≠ opener) (rest : Restores spans t r) :
      Restores spans (c :: t) (c :: r)
  | mark {id : Nat} {w t r : Text} {span : Span} (hw : IsMarker id w) (hspan : spans[id]? = some span)
      (rest : Restores spans t r) : Restores spans (w ++ t) (span.text ++ r)

/-- What is wrong with an opening character at byte `offset` that begins the text `t`. -/
def FaultAt (spans : List Span) (offset : Nat) (t : Text) : Fault → Prop
  | .malformed n => n = offset ∧ ∀ id, ¬ Begins id t
  | .unresolved id => spans.length ≤ id ∧ Begins id t

/-- In the text `t`, which begins at byte `offset`, all opening characters before some one begin markers that
have spans, and that one has a fault. -/
def FirstFault (spans : List Span) (offset : Nat) (t : Text) (fault : Fault) : Prop :=
  ∃ a b, t = a ++ opener :: b ∧
    (∀ a' b', t = a' ++ opener :: b' → a'.length < a.length → Resolves spans (opener :: b')) ∧
    FaultAt spans (offset + byteSize a) (opener :: b) fault

/-! ### Faults -/

/-- What is longer than the front part of a text begins with it. -/
theorem exists_of_append_eq {u s a b : Text} (h : u ++ s = a ++ b) (hle : u.length ≤ a.length) :
    ∃ m, a = u ++ m ∧ s = m ++ b := by
  obtain ⟨m, rfl⟩ := List.prefix_of_prefix_length_le (List.prefix_append u s) (h ▸ List.prefix_append a b) hle
  rw [List.append_assoc] at h
  exact ⟨m, rfl, List.append_cancel_left h⟩

/-- Where there is a fault no marker resolves. -/
theorem FaultAt.not_resolves (h : FaultAt spans offset t fault) : ¬ Resolves spans t := by
  rintro ⟨id, hlt, hid⟩
  cases fault with
  | malformed n => exact h.2 id hid
  | unresolved i =>
    rw [h.2.unique hid] at h
    exact absurd h.1 (Nat.not_le.mpr hlt)

/-- An opening character has one fault at most. -/
theorem FaultAt.unique {fault' : Fault} (h : FaultAt spans offset t fault)
    (h' : FaultAt spans offset t fault') : fault = fault' := by
  cases fault with
  | malformed n =>
    cases fault' with
    | malformed m => rw [h.1, h'.1]
    | unresolved i => exact absurd h'.2 (h.2 i)
  | unresolved i =>
    cases fault' with
    | malformed m => exact absurd h.2 (h'.2 i)
    | unresolved j => rw [h.2.unique h'.2]

/-- A text has one first fault at most. -/
theorem FirstFault.unique {fault' : Fault} (h : FirstFault spans offset t fault)
    (h' : FirstFault spans offset t fault') : fault = fault' := by
  obtain ⟨a, b, rfl, hbefore, hfault⟩ := h
  obtain ⟨a', b', heq, hbefore', hfault'⟩ := h'
  rcases Nat.lt_trichotomy a.length a'.length with hlt | hlen | hlt
  · exact absurd (hbefore' a b rfl hlt) hfault.not_resolves
  · obtain ⟨rfl, htail⟩ := List.append_inj heq hlen
    obtain ⟨-, rfl⟩ := List.cons.inj htail
    exact hfault.unique hfault'
  · exact absurd (hbefore a' b' heq hlt) hfault'.not_resolves

/-- A first fault stays the first if all opening characters of what is put in front begin markers that have
spans. -/
theorem FirstFault.append {u : Text}
    (hu : ∀ a b, u ++ t = a ++ opener :: b → a.length < u.length → Resolves spans (opener :: b))
    (h : FirstFault spans (offset + byteSize u) t fault) : FirstFault spans offset (u ++ t) fault := by
  obtain ⟨a, b, rfl, hbefore, hfault⟩ := h
  refine ⟨u ++ a, b, by rw [List.append_assoc], ?_, ?_⟩
  · intro a' b' heq hlt
    by_cases hfront : a'.length < u.length
    · exact hu a' b' heq hfront
    · obtain ⟨m, rfl, hm⟩ := exists_of_append_eq heq (Nat.not_lt.mp hfront)
      rw [List.length_append, List.length_append] at hlt
      exact hbefore m b' hm (by omega)
  · rwa [byteSize_append, ← Nat.add_assoc]

/-- The opening characters of a marker, whatever stands behind it. -/
theorem resolves_of_isMarker {id : Nat} {w a b : Text} (hw : IsMarker id w) (hlt : id < spans.length)
    (heq : w ++ t = a ++ opener :: b) (hlen : a.length < w.length) : Resolves spans (opener :: b) := by
  have ha : a = [] := by
    -- the opening character is within the marker, since it comes before its end
    have heq' : (a ++ [opener]) ++ b = w ++ t := by rw [List.append_assoc, List.singleton_append, heq]
    obtain ⟨m, hm, -⟩ := exists_of_append_eq heq' (by rw [List.length_append, List.length_singleton]; omega)
    rw [List.append_assoc, List.singleton_append] at hm
    exact hw.eq_nil_of_opener hm
  subst ha
  rw [List.nil_append] at heq
  exact ⟨id, hlt, heq ▸ hw.begins t⟩

/-! ### Restored texts -/

/-- In a text that can be restored every opening character begins a marker that has a span. -/
theorem Restores.resolves (h : Restores spans t r) {a b : Text} (heq : t = a ++ opener :: b) :
    Resolves spans (opener :: b) := by
  induction h generalizing a with
  | nil => simp at heq
  | plain hc rest ih =>
    cases a with
    | nil => exact absurd (List.cons.inj heq).1 hc
    | cons d a => exact ih (List.cons.inj heq).2
  | @mark id w t r span hw hspan rest ih =>
    have hlt : id < spans.length := (List.getElem?_eq_some_iff.mp hspan).1
    by_cases hlen : a.length < w.length
    · exact resolves_of_isMarker hw hlt heq hlen
    · obtain ⟨m, -, hm⟩ := exists_of_append_eq heq (Nat.not_lt.mp hlen)
      exact ih hm

/-! ### What unmasking answers -/

/-- What a result of unmasking says of the text `t`, which begins at byte `offset`. -/
def Answers (spans : List Span) (offset : Nat) (t : Text) : Except Fault Text → Prop
  | .ok r => Restores spans t r
  | .error fault => FirstFault spans offset t fault

/-- A character that opens no marker is put back as it is. -/
theorem Answers.plain {c : Char} (hc : c ≠ opener) {result : Except Fault Text}
    (h : Answers spans (offset + c.utf8Size) t result) :
    Answers spans offset (c :: t) (result.map (c :: ·)) := by
  cases result with
  | ok r => exact Restores.plain hc h
  | error fault =>
    refine FirstFault.append (u := [c]) ?_ h
    intro a b heq hlt
    have ha : a = [] := List.length_eq_zero_iff.mp (Nat.lt_one_iff.mp hlt)
    rw [ha] at heq
    exact absurd (List.cons.inj heq).1 hc

/-- A marker is put back as the text of its span. -/
theorem Answers.mark {id : Nat} {w : Text} {span : Span} (hw : IsMarker id w)
    (hspan : spans[id]? = some span) {result : Except Fault Text}
    (h : Answers spans (offset + byteSize w) t result) :
    Answers spans offset (w ++ t) (result.map (span.text ++ ·)) := by
  cases result with
  | ok r => exact Restores.mark hw hspan h
  | error fault =>
    refine FirstFault.append ?_ h
    intro a b
    exact resolves_of_isMarker hw (List.getElem?_eq_some_iff.mp hspan).1

/-- **Unmasking puts the spans back or answers with the first fault.** -/
theorem answers_unmaskFrom (spans : List Span) (offset : Nat) (t : Text) :
    Answers spans offset t (unmaskFrom spans offset t) := by
  -- a fault at the front of a text is its first
  have hfront : ∀ {offset : Nat} {cs : Text} {fault : Fault}, FaultAt spans offset (opener :: cs) fault →
      FirstFault spans offset (opener :: cs) fault :=
    fun hfault => ⟨[], _, rfl, fun _ _ _ hlt => absurd hlt (Nat.not_lt_zero _), hfault⟩
  fun_induction unmaskFrom spans offset t with
  | case1 => exact .nil
  | case2 offset cs hnone =>
    apply hfront
    refine ⟨rfl, ?_⟩
    intro id hid
    obtain ⟨digits, hread⟩ := Marker.begins_iff.mp hid
    rw [hnone] at hread
    cases hread
  | case3 offset cs found hnone hfound =>
    apply hfront
    exact ⟨List.getElem?_eq_none_iff.mp hnone, Marker.begins_iff.mpr ⟨found.digits, hfound⟩⟩
  | case4 offset cs found span hspan hfound ih =>
    obtain ⟨w, hw, heq, hsize⟩ := Marker.exists_of_read?_cons hfound
    rw [← hsize] at ih ⊢
    rw [heq]
    exact ih.mark hw hspan
  | case5 offset c cs hc ih => exact ih.plain hc

/-- A text that can be restored is unmasked. -/
theorem Restores.unmaskFrom_eq (h : Restores spans t r) (offset : Nat) :
    unmaskFrom spans offset t = .ok r := by
  induction h generalizing offset with
  | nil => rw [unmaskFrom]
  | plain hc rest ih =>
    rw [unmaskFrom_plain spans offset hc, ih]
    rfl
  | mark hw hspan rest ih =>
    obtain ⟨digits, rfl, hne, hdigits, rfl, hlt⟩ := hw
    rw [List.cons_append, List.append_assoc, List.singleton_append, unmaskFrom, if_pos rfl,
      Marker.read?_mark hdigits hne hlt]
    simp only [hspan, Marker.drop_digits, ih]
    rfl

/-- When a text is unmasked. -/
theorem unmaskFrom_eq_ok_iff : unmaskFrom spans offset t = .ok r ↔ Restores spans t r := by
  constructor
  · intro h
    have hanswers := answers_unmaskFrom spans offset t
    rwa [h] at hanswers
  · exact fun h => h.unmaskFrom_eq offset

/-- When a text cannot be unmasked, and why. -/
theorem unmaskFrom_eq_error_iff :
    unmaskFrom spans offset t = .error fault ↔ FirstFault spans offset t fault := by
  have hanswers := answers_unmaskFrom spans offset t
  constructor
  · intro h
    rwa [h] at hanswers
  · intro h
    cases hresult : unmaskFrom spans offset t with
    | ok r =>
      obtain ⟨a, b, heq, -, hfault⟩ := h
      exact absurd ((unmaskFrom_eq_ok_iff.mp hresult).resolves heq) hfault.not_resolves
    | error fault' =>
      rw [hresult] at hanswers
      rw [h.unique hanswers]

/-- **Unmasking succeeds exactly on markers that have spans, and reports the first fault.** A text is unmasked
if each of its opening characters begins a marker that has a span, and the result is the text with the spans
in the places of the markers; the text of a span is not read again, whatever it holds. Otherwise the fault is
that of the first opening character that begins no such marker: if it begins none at all, its byte in the
whole text is named, and else the number without a span. -/
theorem unmask_exact (sheet : Masked) :
    ((∃ r, sheet.unmask = .ok r) ↔
      ∀ a b, sheet.text = a ++ opener :: b → Resolves sheet.spans (opener :: b)) ∧
    (∀ r, sheet.unmask = .ok r ↔ Restores sheet.spans sheet.text r) ∧
    ∀ fault, sheet.unmask = .error fault ↔
      ∃ a b, sheet.text = a ++ opener :: b ∧
        (∀ a' b', sheet.text = a' ++ opener :: b' → a'.length < a.length →
          Resolves sheet.spans (opener :: b')) ∧
        FaultAt sheet.spans (byteSize a) (opener :: b) fault := by
  refine ⟨⟨?_, ?_⟩, fun r => unmaskFrom_eq_ok_iff, ?_⟩
  · rintro ⟨r, h⟩ a b heq
    exact (unmaskFrom_eq_ok_iff.mp h).resolves heq
  · intro hall
    cases hresult : sheet.unmask with
    | ok r => exact ⟨r, rfl⟩
    | error fault =>
      obtain ⟨a, b, heq, -, hfault⟩ := unmaskFrom_eq_error_iff.mp hresult
      exact absurd (hall a b heq) hfault.not_resolves
  · intro fault
    rw [unmask, unmaskFrom_eq_error_iff]
    simp only [FirstFault, Nat.zero_add]

/-- A marker with zeros in front, behind which the text of its span is not read again, and then, behind a
character of two bytes, a marker that is never closed. -/
example :
    Masked.unmask ⟨"é\x0200\x03".toList, [⟨.control, 0, 3, "\x029\x03".toList⟩]⟩ = .ok "é\x029\x03".toList ∧
      Masked.unmask ⟨"é\x0200\x03é\x021".toList, [⟨.control, 0, 3, "\x029\x03".toList⟩]⟩
        = .error (.malformed 8) ∧
      Masked.unmask ⟨"é\x0201\x03é\x021".toList, [⟨.control, 0, 3, "\x029\x03".toList⟩]⟩
        = .error (.unresolved 1) := by
  decide +kernel

end Masked

end BidiSheet
