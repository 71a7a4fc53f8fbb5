import BidiSheet.Proofs.Alike.Segment
import BidiSheet.Proofs.Value

/-!
# Declarations that are read again

The parts of a declaration are *legible* if they are found again in its text, and a segment is read as a
declaration exactly if it is the text of legible parts (`Declaration.read?_eq_some_iff`). Reflecting a
declaration keeps its parts legible (`Declaration.Legible.reflect`), so the reflected segment is read as the
reflected declaration: a new name still has the vendor's mark where it was, and no exclamation mark ends
the value too early or too late.

* `Declaration.reflect_reflect_reflect`: reflecting three times is reflecting once.
-/

namespace BidiSheet

open Marker (opener closer isControl)
open Tokens (isMarked)

namespace Declaration

/-! ### Blanks and markers -/

/-- A marker is trivia with however many digits. -/
theorem trivia_marker {ds : Text} (hds : ∀ c ∈ ds, c.isDigit = true) (hne : ds ≠ [])
    (hlt : Nat.ofDigitChars 10 ds 0 < Marker.bound) (t : Text) :
    trivia (opener :: (ds ++ closer :: t)) = ds.length + 2 + trivia t := by
  rw [trivia, if_neg (by decide), Marker.read?_mark hds hne hlt]
  simp only [Marker.Found.size, Marker.drop_digits]

/-- The blanks and markers at the front of a text, and what stands behind them. -/
theorem exists_trivia (t : Text) :
    ∃ u r, t = u ++ r ∧ trivia u = u.length ∧ trivia t = u.length ∧ trivia r = 0 := by
  fun_induction trivia t with
  | case1 => exact ⟨[], [], rfl, by rw [trivia]; rfl, rfl, by rw [trivia]⟩
  | case2 c cs hc ih =>
    obtain ⟨u, r, rfl, hu, ht, hr⟩ := ih
    refine ⟨c :: u, r, rfl, ?_, ?_, hr⟩
    · rw [trivia_blank hc, hu, List.length_cons]
    · rw [ht, List.length_cons]
  | case3 c cs hc found hfound ih =>
    obtain ⟨ds, rest, heq, hds, hne, hlt, rfl⟩ := Marker.exists_of_read? hfound
    obtain ⟨rfl, rfl⟩ := List.cons.inj heq
    simp only [Marker.drop_digits] at ih ⊢
    obtain ⟨u, r, rfl, hu, ht, hr⟩ := ih
    refine ⟨opener :: (ds ++ closer :: u), r, by simp, ?_, ?_, hr⟩
    · rw [trivia_marker hds hne hlt, hu]
      simp only [List.length_cons, List.length_append]
      omega
    · rw [ht, Marker.Found.size]
      simp only [List.length_cons, List.length_append]
      omega
  | case4 c cs hc hnone =>
    refine ⟨[], c :: cs, rfl, by rw [trivia]; rfl, rfl, ?_⟩
    rw [trivia, if_neg hc, hnone]

/-- Behind blanks and markers, blanks and markers are found as they would be alone. -/
theorem trivia_append {u : Text} (h : trivia u = u.length) (t : Text) :
    trivia (u ++ t) = u.length + trivia t := by
  fun_induction trivia u with
  | case1 => simp
  | case2 c cs hc ih =>
    rw [List.length_cons, Nat.add_right_cancel_iff] at h
    rw [List.cons_append, trivia_blank hc, ih h, List.length_cons]
    omega
  | case3 c cs hc found hfound ih =>
    obtain ⟨ds, rest, heq, hds, hne, hlt, rfl⟩ := Marker.exists_of_read? hfound
    obtain ⟨rfl, rfl⟩ := List.cons.inj heq
    simp only [Marker.drop_digits, Marker.Found.size, List.length_cons, List.length_append] at ih h ⊢
    rw [List.cons_append, List.append_assoc, List.cons_append, trivia_marker hds hne hlt, ih (by omega)]
    omega
  | case4 c cs hc hnone => cases h

/-- Trivia are all trivia. -/
theorem trivia_take (t : Text) : trivia (t.take (trivia t)) = (t.take (trivia t)).length := by
  obtain ⟨u, r, rfl, hu, ht, -⟩ := exists_trivia t
  rw [ht, List.take_left, hu]

/-- No character of a name begins blanks or a marker. -/
theorem isBlank_of_isNameChar {c : Char} (h : isNameChar c = true) : isBlank c = false ∧ c ≠ opener := by
  have hne : ∀ d, isNameChar d = false → c ≠ d := by
    rintro d hd rfl
    rw [h] at hd
    cases hd
  refine ⟨?_, hne _ (by decide)⟩
  simp only [isBlank, Bool.or_eq_false_iff, decide_eq_false_iff_not]
  exact ⟨⟨⟨⟨hne _ rfl, hne _ rfl⟩, hne _ rfl⟩, hne _ rfl⟩, hne _ rfl⟩

/-- Blanks and markers, and what stands behind a name after them, are no part of the name. -/
theorem dropWhile_isNameChar {gap : Text} (h : trivia gap = gap.length) (rest : Text) :
    (gap ++ ':' :: rest).takeWhile isNameChar = [] ∧
      (gap ++ ':' :: rest).dropWhile isNameChar = gap ++ ':' :: rest := by
  cases gap with
  | nil => exact ⟨rfl, rfl⟩
  | cons c gap =>
    have hc : ¬ isNameChar c = true := by
      intro hc
      obtain ⟨h1, h2⟩ := isBlank_of_isNameChar hc
      rw [trivia_plain h1 h2] at h
      cases h
    rw [List.cons_append]
    exact ⟨List.takeWhile_cons_of_neg hc, List.dropWhile_cons_of_neg hc⟩

/-! ### Names -/

/-- A hack is the first character, if it is one. -/
theorem hackOf_cons (c : Char) (t : Text) : hackOf (c :: t) = if isHack c then [c] else [] := by
  by_cases h : isHack c = true <;> simp [hackOf, h]

/-- What stands behind a text does not matter to its hack. -/
theorem hackOf_append_right {s : Text} (hs : s ≠ []) (t : Text) : hackOf (s ++ t) = hackOf s := by
  cases s with
  | nil => exact absurd rfl hs
  | cons c s => rw [List.cons_append, hackOf_cons, hackOf_cons]

/-- A vendor's mark is a stretch between two hyphens. -/
theorem exists_of_vendorLength {name : Text} (h : vendorLength name ≠ 0) :
    ∃ x rest, x ≠ [] ∧ '-' ∉ x ∧ name = '-' :: (x ++ '-' :: rest) ∧
      vendorLength name = x.length + 2 := by
  unfold vendorLength at h ⊢
  split at h
  next t =>
    have ht : t = t.takeWhile (· ≠ '-') ++ t.dropWhile (· ≠ '-') :=
      List.takeWhile_append_dropWhile.symm
    have hx : '-' ∉ t.takeWhile (· ≠ '-') := fun hm => by simpa using List.mem_takeWhile_imp hm
    split at h
    · exact absurd rfl h
    next n hn =>
      split at h
      next hlt =>
        cases hd : t.dropWhile (· ≠ '-') with
        | nil =>
          rw [hd, List.append_nil] at ht
          rw [← ht] at hn
          omega
        | cons c rest =>
          have hc : c = '-' := by
            have hhead := List.head?_dropWhile_not (fun c : Char => decide (c ≠ '-')) t
            rw [hd] at hhead
            simpa using hhead
          subst hc
          refine ⟨t.takeWhile (· ≠ '-'), rest, ?_, hx, ?_, ?_⟩
          · intro hnil
            rw [hnil] at hn
            cases hn
          · rw [← hd, ← ht]
          · rw [hn]
            simp only [if_pos hlt]
      next => exact absurd rfl h
  · exact absurd rfl h

/-- A vendor mark is a word between two hyphens. -/
theorem vendorLength_mark {x : Text} (hx : x ≠ []) (hyphen : '-' ∉ x) (rest : Text) :
    vendorLength ('-' :: (x ++ '-' :: rest)) = x.length + 2 := by
  have htake : (x ++ '-' :: rest).takeWhile (· ≠ '-') = x := by
    rw [List.takeWhile_append_of_pos, List.takeWhile_cons_of_neg (by simp), List.append_nil]
    intro c hc
    rw [decide_eq_true_eq]
    rintro rfl
    exact hyphen hc
  obtain ⟨n, hn⟩ := Nat.exists_eq_succ_of_ne_zero (List.length_pos_iff.mpr hx).ne'
  rw [vendorLength, htake, hn]
  simp only
  rw [if_pos]
  rw [List.length_append, hn, List.length_cons]
  omega

/-- A name that begins with no hyphen has no vendor mark. -/
theorem vendorLength_of_ne {c : Char} (h : c ≠ '-') (t : Text) : vendorLength (c :: t) = 0 := by
  unfold vendorLength
  split
  next heq => exact absurd (List.cons.inj heq).1 h
  · rfl

/-- A vendor mark is a part of the name. -/
theorem vendorLength_le (name : Text) : vendorLength name ≤ name.length := by
  by_cases h : vendorLength name = 0
  · rw [h]
    exact Nat.zero_le _
  · obtain ⟨x, rest, -, -, rfl, hlen⟩ := exists_of_vendorLength h
    rw [hlen]
    simp only [List.length_cons, List.length_append]
    omega

/-! ### Legible parts -/

/-- The parts of a declaration are found again in its text. -/
structure Legible (d : Declaration) : Prop where
  /-- Nothing but blanks and markers comes first. -/
  lead : trivia d.lead = d.lead.length
  /-- The hack is what would be taken for one. -/
  hack : hackOf d.name = d.hack
  /-- The name consists of characters of names. -/
  name : ∀ c ∈ d.vendor ++ d.base, isNameChar c = true
  /-- There is a name. -/
  ne_nil : d.vendor ++ d.base ≠ []
  /-- The vendor's mark is what would be taken for one. -/
  vendor : vendorLength (d.vendor ++ d.base) = d.vendor.length
  /-- Nothing but blanks and markers comes before the colon. -/
  gap : trivia d.gap = d.gap.length
  /-- The value ends where the annotation begins. -/
  value : valueLength 0 (d.value ++ d.tail) = d.value.length

/-- The text of a legible declaration reads as the declaration. -/
theorem read?_text {d : Declaration} (h : d.Legible) : read? d.text = some d := by
  obtain ⟨lead, hack, vendor, base, gap, value, tail⟩ := d
  obtain ⟨hlead, hhack, hname, hne, hvendor, hgap, hvalue⟩ := h
  simp only [name] at hlead hhack hname hne hvendor hgap hvalue
  have htext : text ⟨lead, hack, vendor, base, gap, value, tail⟩
      = lead ++ (hack ++ ((vendor ++ base) ++ (gap ++ ':' :: (value ++ tail)))) := by
    simp [text, name]
  -- the name, with its hack, does not begin with a blank or a marker
  have hbare : trivia (hack ++ ((vendor ++ base) ++ (gap ++ ':' :: (value ++ tail)))) = 0 := by
    cases hack with
    | nil =>
      obtain ⟨c, cs, hcs⟩ := List.exists_cons_of_ne_nil hne
      have hc : isNameChar c = true := hname c (hcs ▸ List.mem_cons_self)
      obtain ⟨h1, h2⟩ := isBlank_of_isNameChar hc
      rw [List.nil_append, hcs]
      exact trivia_plain h1 h2 _
    | cons c cs =>
      have hc : isHack c = true := by
        rw [List.cons_append, List.cons_append, hackOf_cons] at hhack
        by_contra hno
        rw [if_neg hno] at hhack
        cases hhack
      have hcases : c = '*' ∨ c = '_' := by simpa [isHack] using hc
      rcases hcases with rfl | rfl
      · exact trivia_plain (by decide) (by decide) _
      · exact trivia_plain (by decide) (by decide) _
  have hlen := trivia_append hlead (hack ++ ((vendor ++ base) ++ (gap ++ ':' :: (value ++ tail))))
  rw [hbare, Nat.add_zero] at hlen
  have hhack' : hackOf (hack ++ ((vendor ++ base) ++ (gap ++ ':' :: (value ++ tail)))) = hack := by
    rw [← List.append_assoc, hackOf_append_right, ← List.append_assoc, hhack]
    intro hnil
    exact hne (List.append_eq_nil_iff.mp hnil).2
  obtain ⟨htake, hdrop⟩ := dropWhile_isNameChar hgap (value ++ tail)
  have hcolon : trivia (gap ++ ':' :: (value ++ tail)) = gap.length := by
    rw [trivia_append hgap, trivia_plain (by decide) (by decide), Nat.add_zero]
  rw [read?_eq_assemble?, afterName, bareOf, htext, hlen, List.take_left, List.drop_left, hhack',
    List.drop_left, List.takeWhile_append_of_pos hname, htake, List.append_nil,
    List.dropWhile_append_of_pos hname, hdrop, hcolon, List.take_left, List.drop_left,
    assemble?_colon hne, hvendor, hvalue, List.take_left, List.drop_left, List.take_left,
    List.drop_left]

/-- What reads as a declaration is legible. -/
theorem legible_of_read? {t : Text} {d : Declaration} (h : read? t = some d) : d.Legible := by
  rw [read?_eq_assemble?] at h
  generalize hbare : bareOf t = bare at h
  generalize hafter : afterName t = after at h
  unfold assemble? at h
  split at h
  · cases h
  next hne =>
    split at h
    next rest hrest =>
      cases h
      have hname : bare.takeWhile isNameChar
          = (bare.takeWhile isNameChar).take (vendorLength (bare.takeWhile isNameChar))
            ++ (bare.takeWhile isNameChar).drop (vendorLength (bare.takeWhile isNameChar)) :=
        (List.take_append_drop _ _).symm
      refine ⟨trivia_take t, ?_, ?_, ?_, ?_, trivia_take after, ?_⟩
      · simp only [name]
        rw [List.append_assoc, ← hname]
        rw [bareOf] at hbare
        generalize t.drop (trivia t) = named at hbare
        cases named with
        | nil =>
          rw [← hbare] at hne
          exact absurd rfl hne
        | cons c cs =>
          rw [hackOf_cons] at hbare ⊢
          split
          next hc => rw [List.singleton_append, hackOf_cons, if_pos hc]
          next hc =>
            -- without a hack the name begins with the first character
            rw [if_neg hc] at hbare
            rw [← hbare] at hne ⊢
            rw [List.length_nil, List.drop_zero] at hne ⊢
            cases hname' : isNameChar c with
            | false => simp [hname'] at hne
            | true =>
              rw [List.takeWhile_cons_of_pos hname', List.nil_append, hackOf_cons, if_neg hc]
      · simp only
        rw [← hname]
        exact fun c => List.mem_takeWhile_imp
      · simp only
        rw [← hname]
        exact hne
      · simp only
        rw [← hname, List.length_take_of_le (vendorLength_le _)]
      · simp only
        rw [List.take_append_drop, valueLength_eq, List.length_take_of_le (outerLength_le _ _ _)]
    next => cases h

/-- **A segment is read as a declaration exactly if it is the text of its legible parts.** -/
theorem read?_eq_some_iff {t : Text} {d : Declaration} : read? t = some d ↔ d.text = t ∧ d.Legible := by
  constructor
  · intro h
    exact ⟨text_read h, legible_of_read? h⟩
  · rintro ⟨rfl, h⟩
    exact read?_text h

/-! ### Legible reflections -/

/-- A quiet character of an identifier may be in a name. -/
theorem isNameChar_of_isQuiet {c : Char} (h : isQuiet c = true) (hident : isIdent c = true) :
    isNameChar c = true := by
  have hcases : (((c.isAlphanum = true ∨ c = '-') ∨ c = '+') ∨ c = '.') ∨ c = '%' := by
    simpa [isQuiet] using h
  rcases hcases with (((h | rfl) | rfl) | rfl) | rfl
  · simp [isNameChar, h]
  · decide
  · cases hident
  · cases hident
  · cases hident

namespace Legible

variable {d : Declaration}

/-- A property that has a partner may be renamed. -/
theorem rename (h : d.Legible) (v : Vocabulary) : ({ d with base := v.swap d.base }).Legible := by
  cases hl : v.lookup d.base with
  | none =>
    rw [Vocabulary.swap_of_lookup_eq_none hl]
    exact h
  | some base =>
    rw [Vocabulary.swap_of_lookup hl]
    obtain ⟨w₂, hl₂, -⟩ := Vocabulary.lookup_lookup hl
    obtain ⟨⟨c, t, hct, hc⟩, hident⟩ := Words.isIdent_of_lookup hl₂
    have hquiet := (Vocabulary.quiet_of_lookup hl).2
    have hyphen : c ≠ '-' := by
      rintro rfl
      cases hc
    have hnohack : isHack c = false := by
      simp only [isHack, Bool.or_eq_false_iff, decide_eq_false_iff_not]
      constructor <;> rintro rfl <;> cases hc
    refine ⟨h.lead, ?_, ?_, ?_, ?_, h.gap, h.value⟩
    · have hhack := h.hack
      simp only [Declaration.name] at hhack ⊢
      by_cases hnil : d.hack ++ d.vendor = []
      · obtain ⟨hnil', -⟩ := List.append_eq_nil_iff.mp hnil
        rw [hnil, hnil', List.nil_append, hct, hackOf_cons, hnohack]
        rfl
      · rw [hackOf_append_right hnil] at hhack ⊢
        exact hhack
    · intro e he
      rcases List.mem_append.mp he with he | he
      · exact h.name e (List.mem_append_left _ he)
      · exact isNameChar_of_isQuiet (hquiet e he) (hident e he)
    · simp [hct]
    · have hvendor := h.vendor
      simp only at hvendor ⊢
      by_cases hnil : d.vendor = []
      · rw [hnil, List.nil_append, hct, vendorLength_of_ne hyphen]
        rfl
      · have hpos : vendorLength (d.vendor ++ d.base) ≠ 0 := by
          rw [hvendor]
          exact fun hz => hnil (List.length_eq_zero_iff.mp hz)
        obtain ⟨x, rest, hx, hxhyphen, hname, hlen⟩ := exists_of_vendorLength hpos
        have hmark : d.vendor = '-' :: (x ++ ['-']) := by
          have hsplit : d.vendor ++ d.base = ('-' :: (x ++ ['-'])) ++ rest := by simpa using hname
          apply List.append_inj_left hsplit
          rw [← hvendor, hlen]
          simp
        rw [hmark]
        have hlen' := vendorLength_mark hx hxhyphen base
        simp only [List.cons_append, List.append_assoc, List.nil_append, List.length_cons,
          List.length_append, List.length_nil] at hlen' ⊢
        omega

/-- The value of a legible declaration shelters its delimiters. -/
theorem isSheltered_value (h : d.Legible) : isSheltered d.value = true := by
  have hvalue := h.value
  rw [valueLength_eq, outerLength_append_eq_iff] at hvalue
  exact isSheltered_iff.mpr hvalue.1

/-- Another value may take the place of the value, if it shelters exclamation marks and has its brackets
closed where the value has. -/
theorem withValue (h : d.Legible) {x : Text} (hx : isSheltered x = true)
    (hclosed : isClosed d.value = true → isClosed x = true) : ({ d with value := x }).Legible := by
  refine ⟨h.lead, h.hack, h.name, h.ne_nil, h.vendor, h.gap, ?_⟩
  have hvalue := h.value
  rw [valueLength_eq, outerLength_append_eq_iff] at hvalue
  simp only
  rw [valueLength_eq, outerLength_append_eq_iff]
  refine ⟨isSheltered_iff.mp hx, hvalue.2.imp_right ?_⟩
  rintro ⟨hdepth, hhead⟩
  exact ⟨isClosed_iff.mp (hclosed (isClosed_iff.mpr hdepth)), hhead⟩

/-- **A declaration is legible after every rule.** -/
theorem under (h : d.Legible) (rule : Rule) : (d.under rule).Legible := by
  by_cases hr : ∃ v, rule.action = .rename v
  · obtain ⟨v, hv⟩ := hr
    rw [under_rename d hv]
    exact h.rename v
  · rw [under_of_ne d fun v hv => hr ⟨v, hv⟩]
    exact h.withValue (rule.action.isSheltered_onValue h.isSheltered_value)
      rule.action.isClosed_onValue

/-- A legible declaration has a legible reflection. -/
theorem reflect (h : d.Legible) (table : Table) : (d.reflect table).Legible := by
  unfold Declaration.reflect
  split
  · exact h
  next rule _ => exact h.under rule

end Legible

/-! ### Reflecting three times -/

/-- Whether the rule that covers a property only puts words in another order. -/
def isMoved (table : Table) (d : Declaration) : Bool :=
  (table.ruleFor (lower d.base)).any fun rule => rule.action.isMove

/-- A declaration whose value can be reflected again: its markers are whole, and if its words are to be put
in another order, its brackets are closed. -/
structure Firm (table : Table) (d : Declaration) : Prop where
  isMarked : isMarked (Value.read d.value).tokens = true
  isClosed : d.isMoved table = true → isClosed d.value = true

end Declaration

/-- An action that is applied three times does what it does the first time. -/
theorem Action.onValue_onValue_onValue (action : Action) {x : Text}
    (hmarked : isMarked (Value.read x).tokens = true)
    (hclosed : action.isMove = true → isClosed x = true) :
    (action.onValue (Value.read (action.onValue (Value.read
      (action.onValue (Value.read x)).render)).render)).render
      = (action.onValue (Value.read x)).render := by
  have hread := Value.read_render_onValue action hmarked hclosed
  have hmarked' : isMarked (Value.read (action.onValue (Value.read x)).render).tokens = true := by
    rw [hread]
    exact action.isMarked_revise hmarked
  have hread' := Value.read_render_onValue action hmarked'
    fun hmove => action.isClosed_onValue (hclosed hmove)
  rw [action.render_onValue_read (action.onValue (Value.read _)).render, hread', hread,
    revise_revise_revise, tail_revise, tail_revise, ← action.render_onValue_read]

namespace Declaration

variable {d : Declaration}

/-- The rules that change values leave the property, so the same rule covers it again. -/
theorem ruleFor_under {table : Table} {rule : Rule} (h : table.ruleFor (lower d.base) = some rule)
    (hr : ∀ v, rule.action ≠ .rename v) : table.ruleFor (lower (d.under rule).base) = some rule := by
  rw [under_of_ne d hr, h]

/-- The standard rule that renames properties comes first, and covers the new property too. -/
theorem ruleFor_rename {rule : Rule} {v : Vocabulary}
    (h : Table.standard.ruleFor (lower d.base) = some rule) (hr : rule.action = .rename v) :
    Table.standard.ruleFor (lower (d.under rule).base) = some rule := by
  have hothers : ∀ r ∈ Table.standard.tail, r.action ≠ .rename v := by simp [Table.standard]
  have hfirst : ∀ p, Table.standard.ruleFor p =
      if (Vocabulary.property.partner p).isSome then Table.standard.head?
      else Table.standard.tail.find? (·.covers p) := by
    intro p
    rw [Table.ruleFor, Table.standard, List.find?_cons]
    cases hc : (Vocabulary.property.partner p).isSome with
    | true => simp [Rule.covers, hc]
    | false => simp [Rule.covers, hc]
  rw [hfirst] at h
  cases hp : (Vocabulary.property.partner (lower d.base)).isSome with
  | false =>
    rw [hp, if_neg Bool.false_ne_true] at h
    exact absurd hr (hothers rule (List.mem_of_find?_eq_some h))
  | true =>
    rw [hp, if_pos rfl] at h
    cases h
    cases hr
    obtain ⟨p, hp'⟩ := Option.isSome_iff_exists.mp hp
    have hl : Vocabulary.property.lookup d.base = some (recase p d.base) := by
      rw [Vocabulary.lookup, hp']
      rfl
    obtain ⟨w₂, hl₂, -⟩ := Vocabulary.lookup_lookup hl
    obtain ⟨p₂, hp₂, -⟩ := Option.map_eq_some_iff.mp hl₂
    rw [under_rename d rfl, Vocabulary.swap_of_lookup hl, hfirst, hp₂]
    rfl

/-- The rule that covers a declaration covers its reflection. -/
theorem ruleFor_reflect (d : Declaration) :
    Table.standard.ruleFor (lower (d.reflect .standard).base)
      = Table.standard.ruleFor (lower d.base) := by
  unfold reflect
  split
  · rfl
  next rule h =>
    rw [h]
    by_cases hr : ∃ v, rule.action = .rename v
    · obtain ⟨v, hv⟩ := hr
      exact ruleFor_rename h hv
    · exact ruleFor_under h fun v hv => hr ⟨v, hv⟩

/-- The words of a declaration are moved exactly if those of its reflection are. -/
theorem isMoved_reflect (d : Declaration) :
    (d.reflect .standard).isMoved .standard = d.isMoved .standard := by
  rw [isMoved, ruleFor_reflect, isMoved]

/-- **Reflecting a declaration three times is reflecting it once.** -/
theorem reflect_reflect_reflect (h : d.Firm .standard) :
    ((d.reflect .standard).reflect .standard).reflect .standard = d.reflect .standard := by
  have hreflect : ∀ e : Declaration, Table.standard.ruleFor (lower e.base)
      = Table.standard.ruleFor (lower d.base) →
      e.reflect .standard = ((Table.standard.ruleFor (lower d.base)).map e.under).getD e := by
    intro e he
    rw [reflect, he]
    cases Table.standard.ruleFor (lower d.base) <;> rfl
  have h₁ := ruleFor_reflect d
  have h₂ := (ruleFor_reflect (d.reflect .standard)).trans h₁
  rw [hreflect _ h₂, hreflect _ h₁, hreflect d rfl]
  cases hrule : Table.standard.ruleFor (lower d.base) with
  | none => rfl
  | some rule =>
    simp only [Option.map_some, Option.getD_some]
    by_cases hr : ∃ v, rule.action = .rename v
    · obtain ⟨v, hv⟩ := hr
      rw [under_rename _ hv, under_rename _ hv, under_rename _ hv]
      simp only [Vocabulary.swap_swap_swap]
    · have hne : ∀ v, rule.action ≠ .rename v := fun v hv => hr ⟨v, hv⟩
      rw [under_of_ne _ hne, under_of_ne _ hne, under_of_ne _ hne]
      simp only
      rw [Action.onValue_onValue_onValue _ h.isMarked]
      intro hmove
      apply h.isClosed
      rw [isMoved, hrule]
      exact hmove

end Declaration

end BidiSheet
