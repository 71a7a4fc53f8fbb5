import BidiSheet.Proofs.Legible

/-!
# Reflecting a declaration changes one place

A rule that renames a property writes another base name where the old one stood, and every other rule
writes another value where the old one stood. All around that place stays as it is, and the new segment
is read as the new declaration (`Declaration.read?_reflect?`): the new name begins where the old one did,
behind the same hack and the same vendor's mark, and the new value ends where the annotation begins, since
no exclamation mark comes out of its brackets when words change their places.
-/

namespace BidiSheet

/-- The partner of a word, made small, is the partner of the word made small. -/
theorem Vocabulary.partner_of_lookup {v : Vocabulary} {w w' : Text} (h : v.lookup w = some w') :
    v.partner (lower w) = some (lower w') := by
  obtain ⟨p, hp, rfl⟩ := Option.map_eq_some_iff.mp h
  rw [hp, lower_recase (isPair_of_partner hp).2]

namespace Declaration

/-- What a rule makes of a declaration: one with another base name, or one with another value. -/
inductive Revised (rule : Rule) (d : Declaration) : Declaration → Prop where
  | renamed {v : Vocabulary} {base : Text} (hrule : rule.action = .rename v)
      (hbase : v.partner (lower d.base) = some (lower base)) : Revised rule d { d with base }
  | revalued (hrule : ∀ v, rule.action ≠ .rename v) :
      Revised rule d { d with value := (rule.action.onValue (Value.read d.value)).render }

variable {rule : Rule} {table : Table} {d d' : Declaration}

/-- A declaration under a rule is revised by the rule. -/
theorem revised_of_underRule? (h : d.underRule? rule = some d') : d.Revised rule d' := by
  by_cases hr : ∃ v, rule.action = .rename v
  · obtain ⟨v, hv⟩ := hr
    rw [underRule?_rename d hv] at h
    obtain ⟨base, hbase, rfl⟩ := Option.map_eq_some_iff.mp h
    exact .renamed hv (Vocabulary.partner_of_lookup hbase)
  · have hne : ∀ v, rule.action ≠ .rename v := fun v hv => hr ⟨v, hv⟩
    rw [underRule?_of_ne d hne] at h
    split at h
    · cases h
      exact .revalued hne
    · cases h

/-- A rule that changes a declaration leaves one that can be read. -/
theorem Legible.underRule? (hd : d.Legible) (h : d.underRule? rule = some d') : d'.Legible := by
  have hunder := getD_underRule? rule d
  rw [h, Option.getD_some] at hunder
  rw [hunder]
  exact hd.under rule

/-- A change of a declaration comes from the first rule that covers its property. -/
theorem of_reflect? (h : d.reflect? table = some (rule, d')) :
    table.ruleFor (lower d.base) = some rule ∧ d.underRule? rule = some d' := by
  unfold reflect? at h
  split at h
  · cases h
  next rule' hrule =>
    obtain ⟨e, he, heq⟩ := Option.map_eq_some_iff.mp h
    cases heq
    exact ⟨hrule, he⟩

/-- **Reflecting a declaration changes one place, and the outcome is read as the reflected declaration.**
If `segment` is read as `d` and becomes `f`, then `f` is read as a declaration `d'` with the same blanks,
markers, hack and vendor's mark in front. Under a renaming rule only the base name differs, and it is the
partner of the old one. Under any other rule only the value differs, and it is the value as the rule's
action writes it. -/
theorem read?_reflect? {segment f : Text} (hread : read? segment = some d)
    (hreflect : (d.reflect? table).map (fun r => r.2.text) = some f) :
    ∃ rule d', table.ruleFor (lower d.base) = some rule ∧ read? f = some d' ∧
      d'.lead = d.lead ∧ d'.hack = d.hack ∧ d'.vendor = d.vendor ∧
      ((∃ v, rule.action = .rename v ∧ v.partner (lower d.base) = some (lower d'.base) ∧
          d'.value = d.value ∧
          ∃ before after, segment = before ++ d.base ++ after ∧ f = before ++ d'.base ++ after ∧
            before = d.lead ++ d.hack ++ d.vendor) ∨
        ((∀ v, rule.action ≠ .rename v) ∧ d'.name = d.name ∧ d'.tail = d.tail ∧
          d'.value = (rule.action.onValue (Value.read d.value)).render ∧
          ∃ before, segment = before ++ d.value ++ d.tail ∧ f = before ++ d'.value ++ d'.tail ∧
            before = d.lead ++ d.name ++ d.gap ++ [':'])) := by
  obtain ⟨⟨rule, d'⟩, hd', rfl⟩ := Option.map_eq_some_iff.mp hreflect
  obtain ⟨hrule, hunder⟩ := of_reflect? hd'
  obtain ⟨rfl, hlegible⟩ := read?_eq_some_iff.mp hread
  refine ⟨rule, d', hrule, read?_text (hlegible.underRule? hunder), ?_⟩
  cases revised_of_underRule? hunder with
  | @renamed v base hv hbase =>
    refine ⟨rfl, rfl, rfl, .inl ⟨v, hv, hbase, rfl, _, d.gap ++ ':' :: d.value ++ d.tail, ?_, ?_, rfl⟩⟩
    · simp [text, name]
    · simp [text, name]
  | revalued hne =>
    refine ⟨rfl, rfl, rfl, .inr ⟨hne, rfl, rfl, rfl, _, ?_, ?_, rfl⟩⟩
    · simp [text]
    · simp [text, name]

/-- A box behind a marker, a hack and a vendor's mark: the word with the exclamation mark in brackets moves
to the end, in front of the annotation. -/
theorem read?_reflect?_annotated :
    let segment := "\x020\x03 *-O-Margin :a f(!) c d!ie".toList
    let d : Declaration := ⟨"\x020\x03 ".toList, ['*'], "-O-".toList, "Margin".toList, [' '],
      "a f(!) c d".toList, "!ie".toList⟩
    let f := "\x020\x03 *-O-Margin :a d c f(!)!ie".toList
    read? segment = some d ∧ (d.reflect? .standard).map (fun r => r.2.text) = some f ∧
      ∃ rule d', Table.standard.ruleFor (lower d.base) = some rule ∧ rule.action = .box ∧
        read? f = some d' ∧ d'.vendor = "-O-".toList ∧ d'.value = "a d c f(!)".toList ∧
        d'.tail = "!ie".toList := by
  intro segment d f
  have hread : read? segment = some d := by decide +kernel
  have hreflect : (d.reflect? .standard).map (fun r => r.2.text) = some f := by decide +kernel
  obtain ⟨rule, d', hrule, hread', -, -, hvendor, hplace⟩ := read?_reflect? hread hreflect
  have haction : rule.action = .box := by
    have hbox : (Table.standard.ruleFor (lower d.base)).map Rule.action = some .box := by
      decide +kernel
    rw [hrule] at hbox
    exact Option.some.inj hbox
  refine ⟨hread, hreflect, rule, d', hrule, haction, hread', hvendor, ?_⟩
  rcases hplace with ⟨v, hv, -⟩ | ⟨-, -, htail, hvalue, -⟩
  · rw [haction] at hv
    cases hv
  · rw [haction] at hvalue
    refine ⟨hvalue.trans ?_, htail⟩
    decide +kernel

end Declaration

end BidiSheet
