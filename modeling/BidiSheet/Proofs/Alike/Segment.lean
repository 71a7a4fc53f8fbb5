import BidiSheet.Proofs.Alike.Value
import BidiSheet.Proofs.Segment

/-!
# Reflecting alike texts

Reflecting does the same to alike texts: declarations are found in the same places and taken apart in the
same way (`Declaration.alike_read?`), their reflections are alike (`alike_reflectBody`), and so are whole
reflected texts (`alike_reflectText`). Equally many segments are declarations, and where markers are
renumbered one to one, equally many are changed.
-/

namespace BidiSheet

open Marker (opener closer isControl)

variable {ρ : Nat → Nat → Prop} {s t : Text}

/-! ### Declarations -/

namespace Declaration

/-- A blank is trivia. -/
theorem trivia_blank {c : Char} (h : isBlank c = true) (t : Text) :
    trivia (c :: t) = trivia t + 1 := by
  rw [trivia, if_pos h]

/-- Any other character but the opening of a marker ends trivia. -/
theorem trivia_plain {c : Char} (h : isBlank c = false) (hc : c ≠ opener) (t : Text) :
    trivia (c :: t) = 0 := by
  rw [trivia, if_neg (by simp [h]), Marker.read?_of_ne_opener hc]

/-- A marker is trivia. -/
theorem trivia_mark {i : Nat} (hi : i < Marker.bound) (t : Text) :
    trivia (opener :: (Nat.toDigits 10 i ++ closer :: t))
      = (Nat.toDigits 10 i).length + 2 + trivia t := by
  rw [trivia, if_neg (by decide), Marker.read?_text hi]
  simp only [Marker.Found.size, Marker.drop_digits]

/-- The blanks and markers at the front of alike texts end in the same place. -/
theorem alikeCut_trivia (h : Alike ρ s t) : AlikeCut ρ (trivia s) (trivia t) s t := by
  induction h with
  | nil =>
    rw [trivia]
    exact .zero .nil
  | @plain c s t hc h ih =>
    have hne := Marker.ne_opener_of_not_isControl hc
    cases hb : isBlank c with
    | true =>
      rw [trivia_blank hb, trivia_blank hb]
      exact .plain hc ih
    | false =>
      rw [trivia_plain hb hne, trivia_plain hb hne]
      exact .zero (.plain hc h)
  | @mark i j s t hi hj hij h ih =>
    rw [trivia_mark hi, trivia_mark hj]
    exact .mark hi hj hij ih

/-- The values at the front of alike texts end in the same place. -/
theorem alikeCut_valueLength (h : Alike ρ s t) (depth : Nat) :
    AlikeCut ρ (valueLength depth s) (valueLength depth t) s t := by
  rw [valueLength_eq, valueLength_eq]
  refine alikeCut_outerLength ?_ (by decide) h depth
  intro c hc
  rw [decide_eq_false_iff_not]
  rintro rfl
  cases hc

/-- Alike texts have the same hack at the front, and are alike behind it. -/
theorem alike_hackOf (h : Alike ρ s t) :
    hackOf s = hackOf t ∧ Plain (hackOf s) ∧
      Alike ρ (s.drop (hackOf s).length) (t.drop (hackOf t).length) := by
  cases h with
  | nil => exact ⟨rfl, by simp [hackOf, Plain], .nil⟩
  | @plain c s t hc h =>
    by_cases hh : isHack c = true
    · have hs : ∀ u : Text, hackOf (c :: u) = [c] := fun u => by simp [hackOf, hh]
      rw [hs, hs]
      exact ⟨rfl, Plain.cons hc fun _ hd => absurd hd List.not_mem_nil, h⟩
    · have hs : ∀ u : Text, hackOf (c :: u) = [] := fun u => by simp [hackOf, hh]
      rw [hs, hs]
      exact ⟨rfl, fun _ hd => absurd hd List.not_mem_nil, .plain hc h⟩
  | @mark i j s t hi hj hij h =>
    have hs : ∀ u : Text, hackOf (opener :: u) = [] := fun u => by simp [hackOf, isHack, opener]
    rw [hs, hs]
    exact ⟨rfl, fun _ hd => absurd hd List.not_mem_nil, .mark hi hj hij h⟩

/-- Declarations with the same property and with alike other parts. -/
structure AlikeParts (ρ : Nat → Nat → Prop) (d d' : Declaration) : Prop where
  lead : Alike ρ d.lead d'.lead
  hack : d.hack = d'.hack
  plain_hack : Plain d.hack
  vendor : d.vendor = d'.vendor
  plain_vendor : Plain d.vendor
  base : d.base = d'.base
  plain_base : Plain d.base
  gap : Alike ρ d.gap d'.gap
  value : Alike ρ d.value d'.value
  tail : Alike ρ d.tail d'.tail

variable {d d' : Declaration}

/-- Declarations of alike parts have texts that are alike. -/
theorem AlikeParts.text (h : AlikeParts ρ d d') : Alike ρ d.text d'.text := by
  unfold Declaration.text name
  rw [← h.hack, ← h.vendor, ← h.base]
  have hname : Plain (d.hack ++ d.vendor ++ d.base) :=
    (h.plain_hack.append h.plain_vendor).append h.plain_base
  have hfront : Alike ρ (d.lead ++ (d.hack ++ d.vendor ++ d.base) ++ d.gap)
      (d'.lead ++ (d.hack ++ d.vendor ++ d.base) ++ d'.gap) :=
    (h.lead.append (.of_plain hname)).append h.gap
  exact (hfront.append (.plain (by decide) h.value)).append h.tail

/-- **Alike texts are the same declarations**, with alike parts, or both none. -/
theorem alike_read? (h : Alike ρ s t) :
    (read? s = none ∧ read? t = none) ∨
      ∃ d d', read? s = some d ∧ read? t = some d' ∧ AlikeParts ρ d d' := by
  have hname : isNameChar opener = false := by decide
  have hlead := alikeCut_trivia h
  obtain ⟨hhack, hplain, hbare⟩ := alike_hackOf hlead.back
  have hafter : Alike ρ (afterName s) (afterName t) := hbare.dropWhile hname
  have htake : (bareOf s).takeWhile isNameChar = (bareOf t).takeWhile isNameChar :=
    hbare.takeWhile_eq hname
  have hplainName : Plain ((bareOf s).takeWhile isNameChar) := hbare.plain_takeWhile hname
  have hgap := alikeCut_trivia hafter
  rw [read?_eq_assemble?, read?_eq_assemble?, ← htake, ← hhack]
  by_cases hempty : (bareOf s).takeWhile isNameChar = []
  · exact .inl ⟨if_pos hempty, if_pos hempty⟩
  have hhead := hgap.back.head?
  by_cases hcolon : ((afterName s).drop (trivia (afterName s))).head? = some ':'
  · obtain ⟨rest, hrest⟩ := List.head?_eq_some_iff.mp hcolon
    obtain ⟨rest', hrest'⟩ := List.head?_eq_some_iff.mp (hhead.symm.trans hcolon)
    have hback := hgap.back
    rw [hrest, hrest'] at hback
    obtain ⟨_, he, hvalue⟩ := hback.of_cons (by decide)
    cases he
    have hcut := alikeCut_valueLength hvalue 0
    rw [hrest, hrest', assemble?_colon hempty, assemble?_colon hempty]
    refine .inr ⟨_, _, rfl, rfl, ?_⟩
    exact
      { lead := hlead.front
        hack := rfl
        plain_hack := hplain
        vendor := rfl
        plain_vendor := hplainName.of_sublist (List.take_sublist _ _)
        base := rfl
        plain_base := hplainName.of_sublist (List.drop_sublist _ _)
        gap := hgap.front
        value := hcut.front
        tail := hcut.back }
  · rw [assemble?_of_head? hcolon, assemble?_of_head? (hhead ▸ hcolon)]
    exact .inl ⟨rfl, rfl⟩

/-! ### Rules -/

/-- Under a rule, declarations of alike parts stay so. -/
theorem AlikeParts.under (h : AlikeParts ρ d d') (rule : Rule) :
    AlikeParts ρ (d.under rule) (d'.under rule) := by
  by_cases hr : ∃ v, rule.action = .rename v
  · obtain ⟨v, hv⟩ := hr
    have hbase : Plain (v.swap d.base) := by
      rcases v.swap_eq_or_quiet d.base with hs | hs
      · rw [hs]
        exact h.plain_base
      · exact hs.2.plain
    rw [under_rename d hv, under_rename d' hv, ← h.base]
    exact { h with base := rfl, plain_base := hbase }
  · have hne : ∀ v, rule.action ≠ .rename v := fun v hv => hr ⟨v, hv⟩
    rw [under_of_ne d hne, under_of_ne d' hne]
    exact { h with value := (rule.action.alike_onValue (Value.alike_read h.value)).render }

/-- Reflected declarations of alike parts have alike parts. -/
theorem AlikeParts.reflect (h : AlikeParts ρ d d') (table : Table) :
    AlikeParts ρ (d.reflect table) (d'.reflect table) := by
  unfold Declaration.reflect
  rw [← h.base]
  cases table.ruleFor (lower d.base) with
  | none => exact h
  | some rule => exact h.under rule

/-- Where numbers are related one to one, a rule changes both of two alike declarations or none. -/
theorem AlikeParts.isSome_reflect? (hρ : Relator.BiUnique ρ) (h : AlikeParts ρ d d')
    (table : Table) : (d.reflect? table).isSome = (d'.reflect? table).isSome := by
  unfold reflect?
  rw [← h.base]
  cases table.ruleFor (lower d.base) with
  | none => rfl
  | some rule =>
    simp only [Option.isSome_map]
    by_cases hr : ∃ v, rule.action = .rename v
    · obtain ⟨v, hv⟩ := hr
      rw [underRule?_rename d hv, underRule?_rename d' hv, Option.isSome_map, Option.isSome_map,
        h.base]
    · have hne : ∀ v, rule.action ≠ .rename v := fun v hv => hr ⟨v, hv⟩
      have hv := rule.action.alike_onValue (Value.alike_read h.value)
      rw [underRule?_of_ne d hne, underRule?_of_ne d' hne, rule.action.alike_admits hv,
        hv.isChanged hρ]
      split <;> rfl

end Declaration

/-- Bodies that are alike have reflections that are alike. -/
theorem alike_reflectBody (h : Alike ρ s t) (table : Table) :
    Alike ρ (reflectBody table s) (reflectBody table t) := by
  unfold reflectBody
  rcases Declaration.alike_read? h with ⟨hs, ht⟩ | ⟨d, d', hs, ht, hd⟩
  · rw [hs, ht]
    exact h
  · rw [hs, ht]
    exact (hd.reflect table).text

/-! ### Verdicts -/

namespace Verdict

/-- The verdict on a body says whether it reads as a declaration. -/
theorem isDeclaration_ofBody (table : Table) (body : Text) :
    (ofBody table body).isDeclaration = (Declaration.read? body).isSome := by
  unfold ofBody
  cases Declaration.read? body with
  | none => rfl
  | some d =>
    simp only
    split <;> rfl

/-- The verdict on a body says whether its declaration changes. -/
theorem isChange_ofBody (table : Table) (body : Text) :
    (ofBody table body).isChange
      = (Declaration.read? body).any fun d => (d.reflect? table).isSome := by
  unfold ofBody
  cases Declaration.read? body with
  | none => rfl
  | some d =>
    simp only [Option.any_some]
    split
    next hr => rw [hr]; rfl
    next hr => rw [hr]; rfl

end Verdict

/-- The same segments of alike texts are declarations. -/
theorem Alike.isDeclaration (h : Alike ρ s t) (table : Table) :
    (Verdict.ofBody table s).isDeclaration = (Verdict.ofBody table t).isDeclaration := by
  rw [Verdict.isDeclaration_ofBody, Verdict.isDeclaration_ofBody]
  rcases Declaration.alike_read? h with ⟨hs, ht⟩ | ⟨d, d', hs, ht, -⟩
  · rw [hs, ht]
  · rw [hs, ht]
    rfl

/-- Where numbers are related one to one, the same segments of alike texts are changed. -/
theorem Alike.isChange (hρ : Relator.BiUnique ρ) (h : Alike ρ s t) (table : Table) :
    (Verdict.ofBody table s).isChange = (Verdict.ofBody table t).isChange := by
  rw [Verdict.isChange_ofBody, Verdict.isChange_ofBody]
  rcases Declaration.alike_read? h with ⟨hs, ht⟩ | ⟨d, d', hs, ht, hd⟩
  · rw [hs, ht]
  · rw [hs, ht]
    exact hd.isSome_reflect? hρ table

/-! ### Segments -/

/-- Segments with alike bodies and the same delimiter. -/
structure Segment.AlikeParts (ρ : Nat → Nat → Prop) (a b : Segment) : Prop where
  body : Alike ρ a.body b.body
  closer : a.closer = b.closer
  plain_closer : isControl a.closer = false

namespace Segments

/-- Alike segments, in the same order. -/
structure AlikeParts (ρ : Nat → Nat → Prop) (ss tt : Segments) : Prop where
  closed : List.Forall₂ (Segment.AlikeParts ρ) ss.closed tt.closed
  tail : Alike ρ ss.tail tt.tail

variable {ss tt : Segments}

/-- Alike texts may be put before segments of alike parts. -/
theorem AlikeParts.prepend (h : AlikeParts ρ ss tt) {u u' : Text} (hu : Alike ρ u u') :
    AlikeParts ρ (ss.prepend u) (tt.prepend u') := by
  obtain ⟨ss, stail⟩ := ss
  obtain ⟨tt, ttail⟩ := tt
  obtain ⟨hclosed, htail⟩ := h
  simp only at hclosed htail
  cases hclosed with
  | nil => exact ⟨.nil, hu.append htail⟩
  | cons hab hrest =>
    exact ⟨.cons ⟨hu.append hab.body, hab.closer, hab.plain_closer⟩ hrest, htail⟩

/-- No character of a marker is a delimiter. -/
theorem not_isDelimiter_of_mem_text {i : Nat} {c : Char} (h : c ∈ Marker.text i) :
    isDelimiter c = false := by
  rcases Marker.mem_text h with rfl | rfl | hd
  · decide
  · decide
  · by_contra hc
    simp only [isDelimiter, Bool.not_eq_false, Bool.or_eq_true, decide_eq_true_eq] at hc
    rcases hc with (rfl | rfl) | rfl <;> exact absurd hd (by decide)

/-- A marker belongs to the body of the first segment. -/
theorem read_mark (i : Nat) (t : Text) :
    read (opener :: (Nat.toDigits 10 i ++ closer :: t)) = (read t).prepend (Marker.text i) := by
  rw [← Marker.text_append, read_append_of_no_delimiter fun c => not_isDelimiter_of_mem_text]

/-- A character that is no delimiter belongs to the body of the first segment. -/
theorem read_plain {c : Char} (h : isDelimiter c = false) (t : Text) :
    read (c :: t) = (read t).prepend [c] := by
  have hread := read_append_of_no_delimiter (u := [c]) (t := t) (by simpa using h)
  rwa [List.singleton_append] at hread

/-- **Alike texts are cut into alike segments.** -/
theorem alike_read (h : Alike ρ s t) : AlikeParts ρ (read s) (read t) := by
  induction h with
  | nil => exact ⟨.nil, .nil⟩
  | @plain c s t hc h ih =>
    cases hd : isDelimiter c with
    | true =>
      rw [read, read, if_pos hd, if_pos hd]
      exact ⟨.cons ⟨.nil, rfl, hc⟩ ih.closed, ih.tail⟩
    | false =>
      rw [read_plain hd, read_plain hd]
      exact ih.prepend (.plain hc .nil)
  | @mark i j s t hi hj hij h ih =>
    rw [read_mark, read_mark]
    apply ih.prepend
    have hmark := Alike.mark hi hj hij (Alike.nil (ρ := ρ))
    rwa [← Marker.text_append, ← Marker.text_append, List.append_nil, List.append_nil] at hmark

/-- Segments of alike parts have the same delimiters. -/
theorem AlikeParts.closers (h : AlikeParts ρ ss tt) :
    ss.closed.map Segment.closer = tt.closed.map Segment.closer := by
  obtain ⟨hclosed, -⟩ := h
  generalize ss.closed = as at hclosed ⊢
  generalize tt.closed = bs at hclosed ⊢
  induction hclosed with
  | nil => rfl
  | cons hab _ ih => rw [List.map_cons, List.map_cons, hab.closer, ih]

/-- A brace is a delimiter that is no semicolon. -/
theorem hasBrace_eq (ss : Segments) :
    ss.hasBrace = (ss.closed.map Segment.closer).any (fun c => c ≠ ';') := by
  rw [hasBrace, List.any_map]
  rfl

/-- The tails of segments of alike parts both may declare or neither may. -/
theorem AlikeParts.tailMayDeclare (h : AlikeParts ρ ss tt) :
    ss.tailMayDeclare = tt.tailMayDeclare := by
  rw [Segments.tailMayDeclare, Segments.tailMayDeclare, depth, depth, hasBrace_eq, hasBrace_eq,
    h.closers]

end Segments

/-! ### Reflected segments -/

namespace Segment

variable {a b : Segment}

/-- A segment of alike parts has a reflection that is alike. -/
theorem AlikeParts.text_reflect (h : AlikeParts ρ a b) (table : Table) :
    Alike ρ (a.reflect table).text (b.reflect table).text := by
  have hbody : Alike ρ (a.reflect table).body (b.reflect table).body := by
    rw [body_reflect, body_reflect, ← h.closer]
    split
    · exact h.body
    · exact alike_reflectBody h.body table
  have hcloser : Alike ρ [a.closer] [b.closer] := by
    rw [← h.closer]
    exact .plain h.plain_closer .nil
  exact hbody.append hcloser

/-- Segments of alike parts are both declarations or neither is. -/
theorem AlikeParts.isDeclaration (h : AlikeParts ρ a b) (table : Table) :
    (a.verdict table).isDeclaration = (b.verdict table).isDeclaration := by
  unfold verdict
  rw [← h.closer]
  split
  · rfl
  · exact h.body.isDeclaration table

/-- Segments of alike parts both change or neither does. -/
theorem AlikeParts.isChange (hρ : Relator.BiUnique ρ) (h : AlikeParts ρ a b) (table : Table) :
    (a.verdict table).isChange = (b.verdict table).isChange := by
  unfold verdict
  rw [← h.closer]
  split
  · rfl
  · exact h.body.isChange hρ table

end Segment

namespace Segments

variable {ss tt : Segments}

/-- Segments of alike parts have reflections that are alike. -/
theorem AlikeParts.text_reflect (h : AlikeParts ρ ss tt) (table : Table) :
    Alike ρ (ss.reflect table).text (tt.reflect table).text := by
  have hclosed : ∀ {as bs : List Segment}, List.Forall₂ (Segment.AlikeParts ρ) as bs →
      Alike ρ ((as.map (Segment.reflect table)).flatMap Segment.text)
        ((bs.map (Segment.reflect table)).flatMap Segment.text) := by
    intro as bs hab
    induction hab with
    | nil => exact .nil
    | cons hs _ ih => exact (hs.text_reflect table).append ih
  have htail : Alike ρ (ss.reflect table).tail (tt.reflect table).tail := by
    rw [tail_reflect, tail_reflect, ← h.tailMayDeclare]
    split
    · exact alike_reflectBody h.tail table
    · exact h.tail
  exact (hclosed h.closed).append htail

/-- A question that alike segments answer alike holds of equally many. -/
theorem AlikeParts.count {p : Verdict → Bool} {table : Table}
    (hbody : ∀ {u v}, Alike ρ u v → p (Verdict.ofBody table u) = p (Verdict.ofBody table v))
    (hsegment : ∀ {a b}, Segment.AlikeParts ρ a b → p (a.verdict table) = p (b.verdict table))
    (h : AlikeParts ρ ss tt) : ss.count p table = tt.count p table := by
  have hclosed : ∀ {as bs : List Segment}, List.Forall₂ (Segment.AlikeParts ρ) as bs →
      (as.countP fun s => p (s.verdict table)) = bs.countP fun s => p (s.verdict table) := by
    intro as bs hab
    induction hab with
    | nil => rfl
    | cons hs _ ih => rw [List.countP_cons, List.countP_cons, ih, hsegment hs]
  have htail : p (ss.tailVerdict table) = p (tt.tailVerdict table) := by
    unfold tailVerdict
    rw [← h.tailMayDeclare]
    split
    · exact hbody h.tail
    · rfl
  rw [Segments.count, Segments.count, hclosed h.closed, htail]

end Segments

/-- **Reflecting does not depend on how markers are numbered.** Alike texts have alike reflections, with
as many declarations, and as many changed ones where numbers are related one to one. -/
theorem alike_reflectText (h : Alike ρ s t) (table : Table) :
    Alike ρ (reflectText table s).text (reflectText table t).text ∧
    (reflectText table s).declarations = (reflectText table t).declarations ∧
    (Relator.BiUnique ρ →
      (reflectText table s).substitutions = (reflectText table t).substitutions) := by
  have hread := Segments.alike_read h
  refine ⟨hread.text_reflect table, ?_, ?_⟩
  · rw [declarations_reflectText, declarations_reflectText]
    exact hread.count (fun hu => hu.isDeclaration table) (fun hs => hs.isDeclaration table)
  · intro hρ
    rw [substitutions_reflectText, substitutions_reflectText]
    exact hread.count (fun hu => hu.isChange hρ table) (fun hs => hs.isChange hρ table)

end BidiSheet
