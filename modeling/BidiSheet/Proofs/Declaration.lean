import BidiSheet.Segment
import Mathlib

/-!
# What becomes of a declaration

Reflecting a declaration answers nothing where it leaves the declaration as it is. For reasoning about
texts that distinction is of no use: a value on which nothing is queued is written out as it was read, so
the text after a rule is the same function of the declaration in all cases. That function is
`Declaration.under`, and `reflectBody` is what it makes of the text of a segment.

* `Action.map_onValue`: actions queue replacements and change nothing else about tokens.
* `Declaration.getD_underRule?`, `textOf_ofBody`: the two ways of reflecting agree.
-/

namespace BidiSheet

/-! ### Actions leave the tokens in place -/

namespace Token

/-- A replacement leaves the blanks before a token alone. -/
theorem gap_queue (a : Token) (w : Text) : (a.queue w).gap = a.gap := by
  unfold queue
  split <;> rfl

/-- A replacement leaves the kind of a token alone. -/
theorem kind_queue (a : Token) (w : Text) : (a.queue w).kind = a.kind := by
  unfold queue
  split <;> rfl

/-- A replacement leaves the text of a token alone. -/
theorem text_queue (a : Token) (w : Text) : (a.queue w).text = a.text := by
  unfold queue
  split <;> rfl

end Token

namespace Tokens

variable {β : Type} {g : Token → β}

section

variable (hg : ∀ t w, g (Token.queue t w) = g t)

include hg

/-- Queueing words changes nothing else about tokens. -/
theorem map_assign (ts : List Token) (ws : List Text) : (assign ts ws).map g = ts.map g := by
  fun_induction assign ts ws with
  | case1 => rfl
  | case2 => rfl
  | case3 t ts w ws _ ih => rw [List.map_cons, ih, hg, List.map_cons]
  | case4 t ts w ws _ ih => rw [List.map_cons, ih, List.map_cons]

/-- Mapping words changes nothing else about tokens. -/
theorem map_mapWords (f : List Text → List Text) (ts : List Token) :
    (mapWords f ts).map g = ts.map g :=
  map_assign hg ts _

end

/-- What is unchanged in each group is unchanged from the middle of a group on. -/
theorem map_mapGroups_go {F : List Token → List Token} (hF : ∀ ts, (F ts).map g = ts.map g)
    (kind : TokenKind) (group ts : List Token) :
    (mapGroups.go kind F group ts).map g = (group ++ ts).map g := by
  fun_induction mapGroups.go kind F group ts with
  | case1 group => rw [hF, List.append_nil]
  | case2 group t ts _ ih => simp [hF, ih]
  | case3 group t ts _ ih => simp [ih]

/-- What is unchanged in each group is unchanged in the whole. -/
theorem map_mapGroups {F : List Token → List Token} (hF : ∀ ts, (F ts).map g = ts.map g)
    (kind : TokenKind) (ts : List Token) : (mapGroups kind F ts).map g = ts.map g :=
  map_mapGroups_go hF kind [] ts

/-- What is unchanged before the first divider is unchanged in the whole. -/
theorem map_mapBefore {F : List Token → List Token} (hF : ∀ ts, (F ts).map g = ts.map g)
    (kind : TokenKind) (ts : List Token) : (mapBefore kind F ts).map g = ts.map g := by
  rw [mapBefore, List.map_append, hF, ← List.map_append, List.takeWhile_append_dropWhile]

end Tokens

namespace Action

/-- An action queues replacements, and changes nothing else about the tokens. -/
theorem map_onValue {β : Type} {g : Token → β} (hg : ∀ t w, g (Token.queue t w) = g t)
    (action : Action) (v : Value) : (action.onValue v).tokens.map g = v.tokens.map g := by
  have hw := fun f => Tokens.map_mapWords hg f
  cases action with
  | rename vocabulary => rfl
  | swap vocabulary => exact hw _ v.tokens
  | box =>
    show v.swapSides.tokens.map g = v.tokens.map g
    unfold Value.swapSides
    split
    · exact hw _ v.tokens
    · rfl
  | corners =>
    show v.swapCorners.tokens.map g = v.tokens.map g
    unfold Value.swapCorners
    split
    · exact Tokens.map_mapGroups (hw _) .slash v.tokens
    · rfl
  | position =>
    exact Tokens.map_mapGroups (Tokens.map_mapBefore (hw _) .slash) .comma v.tokens
  | offset => exact Tokens.map_mapGroups (hw _) .comma v.tokens

/-- An action leaves the kinds of tokens alone. -/
theorem has_onValue (action : Action) (v : Value) (kind : TokenKind) :
    (action.onValue v).has kind = v.has kind := by
  have hmap := map_onValue Token.kind_queue action v
  have hany : ∀ ts : List Token,
      ts.any (fun t => t.kind = kind) = (ts.map Token.kind).any (fun k => k = kind) := by
    intro ts
    rw [List.any_map]
    rfl
  rw [Value.has, Value.has, hany, hany, hmap]

/-- An action leaves the blanks at the end of a value alone. -/
theorem tail_onValue (action : Action) (v : Value) : (action.onValue v).tail = v.tail := by
  cases action with
  | box =>
    show v.swapSides.tail = v.tail
    unfold Value.swapSides
    split <;> rfl
  | corners =>
    show v.swapCorners.tail = v.tail
    unfold Value.swapCorners
    split <;> rfl
  | _ => rfl

end Action

/-! ### Values on which nothing is queued -/

namespace Value

/-- The text of which a value was read. -/
def source (v : Value) : Text := (v.tokens.flatMap fun t => t.gap ++ t.text) ++ v.tail

/-- An action leaves the text of a value alone, until it is rendered. -/
theorem source_onValue (action : Action) (v : Value) : (action.onValue v).source = v.source := by
  have hmap : (action.onValue v).tokens.map (fun t => t.gap ++ t.text)
      = v.tokens.map (fun t => t.gap ++ t.text) := by
    apply Action.map_onValue
    intro t w
    rw [Token.gap_queue, Token.text_queue]
  unfold source
  rw [List.flatMap_def, List.flatMap_def, hmap, Action.tail_onValue]

/-- A value on which nothing is queued is written out as it was read. -/
theorem render_of_not_isChanged {v : Value} (h : v.isChanged = false) : v.render = v.source := by
  unfold render source
  congr 1
  apply List.flatMap_congr
  intro t ht
  have hnone : t.queued = none := by
    have hall := List.any_eq_false.mp h t ht
    simpa using hall
  rw [Token.render, Token.rendered, hnone, Option.getD_none]

/-- Nothing is queued on a value that was just read. -/
theorem queued_of_mem_read {t : Text} {token : Token} (h : token ∈ (read t).tokens) :
    token.queued = none := by
  fun_induction read t with
  | case1 => exact absurd h List.not_mem_nil
  | case2 t c cs _ n value ih =>
    rcases List.mem_cons.mp h with rfl | h
    · rfl
    · exact ih h

/-- A value that was just read is not changed. -/
theorem not_isChanged_read (t : Text) : (read t).isChanged = false := by
  rw [isChanged, List.any_eq_false]
  intro token htoken
  rw [queued_of_mem_read htoken]
  exact Bool.false_ne_true

/-- A value that was just read has the text that was read. -/
theorem source_read (t : Text) : (read t).source = t := by
  rw [← render_of_not_isChanged (not_isChanged_read t), render_read]

end Value

/-! ### Taking a segment apart -/

namespace Declaration

/-- The declaration with these parts, if there is a name and a colon follows what stands before it. -/
def assemble? (lead hack name gap rest : Text) : Option Declaration :=
  if name = [] then none
  else
    match rest with
    | ':' :: rest =>
      some
        { lead, hack
          vendor := name.take (vendorLength name)
          base := name.drop (vendorLength name)
          gap
          value := rest.take (valueLength 0 rest)
          tail := rest.drop (valueLength 0 rest) }
    | _ => none

/-- What stands behind blanks, markers and hack at the front of a segment. -/
def bareOf (segment : Text) : Text :=
  (segment.drop (trivia segment)).drop (hackOf (segment.drop (trivia segment))).length

/-- What stands behind the name of a segment. -/
def afterName (segment : Text) : Text := (bareOf segment).dropWhile isNameChar

/-- A declaration is put together from five stretches of its segment. -/
theorem read?_eq_assemble? (segment : Text) :
    read? segment =
      assemble? (segment.take (trivia segment)) (hackOf (segment.drop (trivia segment)))
        ((bareOf segment).takeWhile isNameChar)
        ((afterName segment).take (trivia (afterName segment)))
        ((afterName segment).drop (trivia (afterName segment))) :=
  rfl

/-- A name with a colon behind it is that of a declaration. -/
theorem assemble?_colon {name : Text} (h : name ≠ []) (lead hack gap rest : Text) :
    assemble? lead hack name gap (':' :: rest) =
      some
        { lead, hack
          vendor := name.take (vendorLength name)
          base := name.drop (vendorLength name)
          gap
          value := rest.take (valueLength 0 rest)
          tail := rest.drop (valueLength 0 rest) } := by
  rw [assemble?, if_neg h]

/-- Without a colon behind the name there is no declaration. -/
theorem assemble?_of_head? {rest : Text} (h : rest.head? ≠ some ':') (lead hack name gap : Text) :
    assemble? lead hack name gap rest = none := by
  unfold assemble?
  split
  · rfl
  split
  · exact absurd List.head?_cons h
  · rfl

/-! ### Declarations after a rule -/

/-- A declaration after a rule, whether the rule changes it or not. -/
def under (rule : Rule) (d : Declaration) : Declaration :=
  match rule.action with
  | .rename vocabulary => { d with base := vocabulary.swap d.base }
  | action => { d with value := (action.onValue (Value.read d.value)).render }

/-- A declaration after the first rule of a table that covers its property. -/
def reflect (table : Table) (d : Declaration) : Declaration :=
  match table.ruleFor (lower d.base) with
  | none => d
  | some rule => d.under rule

/-- An action does nothing to a value that it is not made for. -/
theorem onValue_of_not_admits {action : Action} (hr : ∀ v, action ≠ .rename v) {v : Value}
    (h : action.admits (action.onValue v) = false) : action.onValue v = v := by
  cases action with
  | rename vocabulary => exact absurd rfl (hr vocabulary)
  | box =>
    have hbox : v.isBox = false := by
      rw [← h, Action.admits, Value.isBox, Value.isBox, Action.has_onValue, Action.has_onValue]
    show v.swapSides = v
    rw [Value.swapSides, hbox, if_neg Bool.false_ne_true]
  | corners =>
    have hcorners : v.isCorners = false := by
      rw [← h, Action.admits, Value.isCorners, Value.isCorners, Action.has_onValue]
    show v.swapCorners = v
    rw [Value.swapCorners, hcorners, if_neg Bool.false_ne_true]
  | swap | position | offset => exact absurd h Bool.noConfusion

/-- Where an action does not report a change, the value is written out as it was. -/
theorem render_onValue_of_not_reported {action : Action} (hr : ∀ v, action ≠ .rename v) {x : Text}
    (h : ¬ (action.admits (action.onValue (Value.read x)) && (action.onValue (Value.read x)).isChanged) = true) :
    (action.onValue (Value.read x)).render = x := by
  rw [Bool.and_eq_true, not_and_or, Bool.not_eq_true, Bool.not_eq_true] at h
  rcases h with hadmits | hchanged
  · rw [onValue_of_not_admits hr hadmits, Value.render_read]
  · rw [Value.render_of_not_isChanged hchanged, Value.source_onValue, Value.source_read]

section

variable {rule : Rule} {v : Vocabulary} (d : Declaration)

/-- A rule that renames looks up the name of a declaration. -/
theorem underRule?_rename (h : rule.action = .rename v) :
    d.underRule? rule = (v.lookup d.base).map fun base => { d with base } := by
  rw [underRule?, h]

/-- A rule that renames exchanges the name of a declaration. -/
theorem under_rename (h : rule.action = .rename v) :
    d.under rule = { d with base := v.swap d.base } := by
  rw [under, h]

/-- Any other rule applies where its action changes the value and admits the change. -/
theorem underRule?_of_ne (h : ∀ v, rule.action ≠ .rename v) :
    d.underRule? rule =
      if rule.action.admits (rule.action.onValue (Value.read d.value)) &&
          (rule.action.onValue (Value.read d.value)).isChanged
      then some { d with value := (rule.action.onValue (Value.read d.value)).render }
      else none := by
  unfold underRule?
  split
  next v hv => exact absurd hv (h v)
  · rfl

/-- Any other rule changes the value of a declaration. -/
theorem under_of_ne (h : ∀ v, rule.action ≠ .rename v) :
    d.under rule = { d with value := (rule.action.onValue (Value.read d.value)).render } := by
  unfold under
  split
  next v hv => exact absurd hv (h v)
  · rfl

end

/-- Where a rule answers nothing, it leaves the declaration as it is. -/
theorem getD_underRule? (rule : Rule) (d : Declaration) :
    (d.underRule? rule).getD d = d.under rule := by
  by_cases hr : ∃ v, rule.action = .rename v
  · obtain ⟨v, hv⟩ := hr
    rw [underRule?_rename d hv, under_rename d hv, Vocabulary.swap]
    cases v.lookup d.base <;> rfl
  · have hne : ∀ v, rule.action ≠ .rename v := fun v hv => hr ⟨v, hv⟩
    rw [underRule?_of_ne d hne, under_of_ne d hne]
    split
    · rfl
    next hc =>
      rw [render_onValue_of_not_reported hne hc]
      rfl

end Declaration

/-- The text of a segment that may be a declaration, after it has been reflected. -/
def reflectBody (table : Table) (body : Text) : Text :=
  match Declaration.read? body with
  | none => body
  | some d => (d.reflect table).text

/-- **The verdict on a segment is about its reflected text.** -/
theorem textOf_ofBody (table : Table) (body : Text) :
    (Verdict.ofBody table body).textOf body = reflectBody table body := by
  unfold Verdict.ofBody reflectBody
  cases hd : Declaration.read? body with
  | none => rfl
  | some d =>
    have hbody : d.text = body := Declaration.text_read hd
    simp only [Declaration.reflect?, Declaration.reflect]
    cases table.ruleFor (lower d.base) with
    | none => exact hbody.symm
    | some rule =>
      simp only [← Declaration.getD_underRule?]
      cases d.underRule? rule with
      | none => exact hbody.symm
      | some d' => rfl

end BidiSheet
