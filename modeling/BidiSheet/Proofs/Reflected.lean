import BidiSheet.Proofs.Legible

/-!
# Texts that are reflected again

Reflecting a declaration puts no brace and no semicolon into it, so a reflected text is cut into the
reflected segments (`Segments.read_reflect`), and its declarations are the reflected declarations
(`declarations_reflectText_text`). Hence a text that is reflected three times is the same as after the first
time, if its declarations can be reflected again (`reflectText_reflectText_reflectText`).
-/

namespace BidiSheet

open Marker (opener closer isControl)

/-! ### Reflected bodies -/

/-- A rule brings quiet characters and blanks into a declaration, and no others. -/
theorem Declaration.mem_under {d : Declaration} {rule : Rule} {c : Char} (hc : c ∈ (d.under rule).text) :
    c ∈ d.text ∨ isQuiet c = true ∨ isBlank c = true := by
  have htext : ∀ e : Declaration, c ∈ e.text ↔ c ∈ e.lead ∨ c ∈ e.hack ∨ c ∈ e.vendor ∨ c ∈ e.base ∨
      c ∈ e.gap ∨ c = ':' ∨ c ∈ e.value ∨ c ∈ e.tail := by
    intro e
    simp [text, name]
  rw [htext] at hc ⊢
  by_cases hr : ∃ v, rule.action = .rename v
  · obtain ⟨v, hv⟩ := hr
    rw [under_rename d hv] at hc
    have hbase : c ∈ v.swap d.base → c ∈ d.base ∨ isQuiet c = true := by
      intro hmem
      rcases v.swap_eq_or_quiet d.base with hsame | ⟨-, hquiet⟩
      · rw [hsame] at hmem
        exact .inl hmem
      · exact .inr (hquiet c hmem)
    simp only at hc
    tauto
  · rw [under_of_ne d fun v hv => hr ⟨v, hv⟩] at hc
    have hvalue := rule.action.mem_onValue (x := d.value) (c := c)
    simp only at hc
    tauto

/-- **Reflecting brings no characters into a segment** but those of quiet words, and blanks. -/
theorem mem_reflectBody {table : Table} {body : Text} {c : Char} (hc : c ∈ reflectBody table body) :
    c ∈ body ∨ isQuiet c = true ∨ isBlank c = true := by
  unfold reflectBody at hc
  split at hc
  · exact .inl hc
  next d hd =>
    rw [← Declaration.text_read hd]
    unfold Declaration.reflect at hc
    split at hc
    · exact .inl hc
    · exact Declaration.mem_under hc

/-- Reflecting a body brings no delimiter into it. -/
theorem not_isDelimiter_reflectBody {table : Table} {body : Text}
    (h : ∀ c ∈ body, isDelimiter c = false) : ∀ c ∈ reflectBody table body, isDelimiter c = false := by
  intro c hc
  rcases mem_reflectBody hc with hc | hc | hc
  · exact h c hc
  · have hne : ∀ d, isQuiet d = false → c ≠ d := fun d hd => ne_of_isQuiet hc hd
    simp [isDelimiter, hne openBrace (by decide), hne closeBrace (by decide), hne ';' (by decide)]
  · simpa using of_isBlank (p := fun c => !isDelimiter c) (by decide) hc

/-- The reflected text of a declaration is read as the reflected declaration. -/
theorem reflectBody_text {d : Declaration} (h : d.Legible) (table : Table) :
    reflectBody table d.text = (d.reflect table).text := by
  rw [reflectBody, Declaration.read?_text h]

/-- A reflected body reads as the reflected declaration. -/
theorem read?_reflectBody (table : Table) (body : Text) :
    Declaration.read? (reflectBody table body)
      = (Declaration.read? body).map (Declaration.reflect table) := by
  cases hd : Declaration.read? body with
  | none => rw [reflectBody, hd, Option.map_none, hd]
  | some d =>
    rw [reflectBody, hd]
    exact Declaration.read?_text ((Declaration.legible_of_read? hd).reflect table)

/-- A third reflection of a body undoes the second, if it does so for its declaration. -/
theorem reflectBody_reflectBody_reflectBody {body : Text}
    (h : ∀ d, Declaration.read? body = some d →
      ((d.reflect .standard).reflect .standard).reflect .standard = d.reflect .standard) :
    reflectBody .standard (reflectBody .standard (reflectBody .standard body))
      = reflectBody .standard body := by
  cases hd : Declaration.read? body with
  | none =>
    have hsame : reflectBody .standard body = body := by rw [reflectBody, hd]
    rw [hsame, hsame, hsame]
  | some d =>
    have hl := Declaration.legible_of_read? hd
    have hbody : reflectBody .standard body = (d.reflect .standard).text := by rw [reflectBody, hd]
    rw [hbody, reflectBody_text (hl.reflect _), reflectBody_text ((hl.reflect _).reflect _), h d hd]

/-! ### Reflected segments -/

/-- A segment keeps its delimiter, and its body is reflected unless it opens a block. -/
theorem Segment.reflect_eq (table : Table) (s : Segment) :
    s.reflect table = ⟨if s.closer = openBrace then s.body else reflectBody table s.body, s.closer⟩ := by
  rw [← Segment.body_reflect]
  rfl

namespace Segments

/-- Segments that are cut where their text is: there are delimiters at their ends and nowhere else. -/
structure Cut (ss : Segments) : Prop where
  body : ∀ s ∈ ss.closed, ∀ c ∈ s.body, isDelimiter c = false
  closer : ∀ s ∈ ss.closed, isDelimiter s.closer = true
  tail : ∀ c ∈ ss.tail, isDelimiter c = false

/-- A delimiter closes a segment whose body has none. -/
theorem Cut.close {ss : Segments} (h : ss.Cut) {c : Char} (hc : isDelimiter c = true) :
    (ss.close c).Cut := by
  refine ⟨?_, ?_, h.tail⟩
  · intro s hs
    rcases List.mem_cons.mp hs with rfl | hs
    · simp
    · exact h.body s hs
  · intro s hs
    rcases List.mem_cons.mp hs with rfl | hs
    · exact hc
    · exact h.closer s hs

/-- A character that is no delimiter may be put in front. -/
theorem Cut.push {ss : Segments} (h : ss.Cut) {c : Char} (hc : isDelimiter c = false) :
    (ss.push c).Cut := by
  have hcons : ∀ {t : Text}, (∀ d ∈ t, isDelimiter d = false) →
      ∀ d ∈ c :: t, isDelimiter d = false := by
    intro t ht d hd
    rcases List.mem_cons.mp hd with rfl | hd
    · exact hc
    · exact ht d hd
  obtain ⟨_ | ⟨s, ss⟩, tail⟩ := ss
  · exact ⟨h.body, h.closer, hcons h.tail⟩
  · refine ⟨?_, ?_, h.tail⟩
    · intro r hr
      rcases List.mem_cons.mp hr with rfl | hr
      · exact hcons (h.body s List.mem_cons_self)
      · exact h.body r (List.mem_cons_of_mem s hr)
    · intro r hr
      rcases List.mem_cons.mp hr with rfl | hr
      · exact h.closer s List.mem_cons_self
      · exact h.closer r (List.mem_cons_of_mem s hr)

/-- A text is cut at its delimiters, and nowhere else. -/
theorem cut_read (t : Text) : (read t).Cut := by
  induction t with
  | nil => exact ⟨by simp [read], by simp [read], by simp [read]⟩
  | cons c t ih =>
    rw [read]
    split
    next hc => exact ih.close hc
    next hc => exact ih.push (by simpa using hc)

/-- **Segments are what their text is cut into**, if there are delimiters only at their ends. -/
theorem read_text {ss : Segments} (h : ss.Cut) : read ss.text = ss := by
  obtain ⟨closed, tail⟩ := ss
  induction closed with
  | nil =>
    have hread := read_append_of_no_delimiter h.tail []
    rw [List.append_nil] at hread
    rw [text, List.flatMap_nil, List.nil_append, hread, read, prepend, List.append_nil]
  | cons s closed ih =>
    have hrest : Cut ⟨closed, tail⟩ :=
      ⟨fun r hr => h.body r (List.mem_cons_of_mem s hr),
        fun r hr => h.closer r (List.mem_cons_of_mem s hr), h.tail⟩
    have htext : text ⟨s :: closed, tail⟩ = s.body ++ s.closer :: text ⟨closed, tail⟩ := by
      simp [text, Segment.text]
    rw [htext, read_append_of_no_delimiter (h.body s List.mem_cons_self), read,
      if_pos (h.closer s List.mem_cons_self), ih hrest, close, prepend, List.append_nil]

variable {ss : Segments}

/-- Reflected segments are cut at their delimiters. -/
theorem Cut.reflect (h : ss.Cut) (table : Table) : (ss.reflect table).Cut := by
  refine ⟨?_, ?_, ?_⟩
  · intro r hr
    obtain ⟨s, hs, rfl⟩ := List.mem_map.mp hr
    rw [Segment.body_reflect]
    split
    · exact h.body s hs
    · exact not_isDelimiter_reflectBody (h.body s hs)
  · intro r hr
    obtain ⟨s, hs, rfl⟩ := List.mem_map.mp hr
    exact h.closer s hs
  · rw [tail_reflect]
    split
    · exact not_isDelimiter_reflectBody h.tail
    · exact h.tail

/-- A reflected text is cut into the reflected segments. -/
theorem read_reflect (table : Table) (t : Text) :
    read (reflectText table t).text = (read t).reflect table :=
  read_text ((cut_read t).reflect table)

/-- Reflecting keeps all delimiters. -/
theorem closers_reflect (table : Table) (ss : Segments) :
    (ss.reflect table).closed.map Segment.closer = ss.closed.map Segment.closer := by
  rw [reflect, List.map_map]
  rfl

/-- Whether the tail may declare is not changed by reflecting. -/
theorem tailMayDeclare_reflect (table : Table) (ss : Segments) :
    (ss.reflect table).tailMayDeclare = ss.tailMayDeclare := by
  rw [tailMayDeclare, tailMayDeclare, depth, depth, hasBrace_eq, hasBrace_eq, closers_reflect]

/-! ### The declarations of a text -/

/-- The segments that may be declarations. -/
def bodies (ss : Segments) : List Text :=
  (ss.closed.filter (·.closer ≠ openBrace)).map Segment.body ++ if ss.tailMayDeclare then [ss.tail] else []

/-- A body is that of a segment, or the tail. -/
theorem mem_bodies {body : Text} (h : body ∈ ss.bodies) :
    (∃ s ∈ ss.closed, s.body = body) ∨ body = ss.tail := by
  rw [bodies, List.mem_append] at h
  rcases h with h | h
  · obtain ⟨s, hs, rfl⟩ := List.mem_map.mp h
    exact .inl ⟨s, (List.mem_filter.mp hs).1, rfl⟩
  · split at h
    · exact .inr (List.mem_singleton.mp h)
    · cases h

/-- The bodies of reflected segments are the reflected bodies. -/
theorem bodies_reflect (table : Table) (ss : Segments) :
    (ss.reflect table).bodies = ss.bodies.map (reflectBody table) := by
  have hclosed : ((ss.closed.map (Segment.reflect table)).filter (·.closer ≠ openBrace)).map Segment.body
      = ((ss.closed.filter (·.closer ≠ openBrace)).map Segment.body).map (reflectBody table) := by
    rw [List.filter_map, List.map_map, List.map_map]
    refine List.map_congr_left fun s hs => ?_
    have hne : s.closer ≠ openBrace := of_decide_eq_true (List.mem_filter.mp hs).2
    rw [Function.comp, Segment.body_reflect, if_neg hne]
    rfl
  rw [bodies, tailMayDeclare_reflect, tail_reflect, bodies, List.map_append]
  congr 1
  split <;> rfl

/-- A segment that opens no block has a body that may declare. -/
theorem body_mem_bodies {s : Segment} (hs : s ∈ ss.closed) (h : s.closer ≠ openBrace) :
    s.body ∈ ss.bodies :=
  List.mem_append_left _ (List.mem_map_of_mem (List.mem_filter.mpr ⟨hs, by simpa using h⟩))

/-- A tail that may declare is a body. -/
theorem tail_mem_bodies (h : ss.tailMayDeclare = true) : ss.tail ∈ ss.bodies := by
  rw [bodies, if_pos h]
  exact List.mem_append_right _ List.mem_cons_self

end Segments

/-- The declarations of a text. -/
def declarations (t : Text) : List Declaration :=
  (Segments.read t).bodies.filterMap Declaration.read?

/-- **The declarations of a reflected text are the reflected declarations.** -/
theorem declarations_reflectText_text (table : Table) (t : Text) :
    declarations (reflectText table t).text = (declarations t).map (Declaration.reflect table) := by
  rw [declarations, Segments.read_reflect, Segments.bodies_reflect, declarations, List.filterMap_map,
    List.map_filterMap]
  congr 1
  funext body
  rw [Function.comp, read?_reflectBody]

/-- A text that is reflected three times is the same as after the first time, if its declarations are. -/
theorem reflectText_thrice {t : Text} (h : ∀ d ∈ declarations t,
      ((d.reflect .standard).reflect .standard).reflect .standard = d.reflect .standard) :
    (reflectText .standard (reflectText .standard (reflectText .standard t).text).text).text
      = (reflectText .standard t).text := by
  have hbody : ∀ body ∈ (Segments.read t).bodies,
      reflectBody .standard (reflectBody .standard (reflectBody .standard body))
        = reflectBody .standard body := by
    intro body hmem
    apply reflectBody_reflectBody_reflectBody
    intro d hd
    exact h d (List.mem_filterMap.mpr ⟨body, hmem, hd⟩)
  rw [text_reflectText, Segments.read_reflect, Segments.read_reflect, text_reflectText]
  generalize Segments.read t = ss at hbody
  have hclosed : (((ss.reflect .standard).reflect .standard).reflect .standard).closed
      = (ss.reflect .standard).closed := by
    simp only [Segments.reflect, List.map_map]
    refine List.map_congr_left fun s hs => ?_
    simp only [Function.comp, Segment.reflect_eq]
    split
    · rfl
    next hne => rw [hbody s.body (Segments.body_mem_bodies hs hne)]
  have htail : (((ss.reflect .standard).reflect .standard).reflect .standard).tail
      = (ss.reflect .standard).tail := by
    rw [Segments.tail_reflect, Segments.tail_reflect, Segments.tail_reflect,
      Segments.tailMayDeclare_reflect, Segments.tailMayDeclare_reflect]
    split
    next hmay => rw [hbody ss.tail (Segments.tail_mem_bodies hmay)]
    · rfl
  rw [Segments.text, hclosed, htail, Segments.text]

/-- **A text that is reflected three times is the same as after the first time.** -/
theorem reflectText_reflectText_reflectText {t : Text} (h : ∀ d ∈ declarations t, d.Firm .standard) :
    (reflectText .standard (reflectText .standard (reflectText .standard t).text).text).text
      = (reflectText .standard t).text :=
  reflectText_thrice fun d hd => Declaration.reflect_reflect_reflect (h d hd)

end BidiSheet
