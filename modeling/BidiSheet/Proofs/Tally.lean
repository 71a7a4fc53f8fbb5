import BidiSheet.Proofs.Letter
import BidiSheet.Proofs.Rescan

/-!
# How often a marker is written

Reflecting writes every marker of a text as often as it stands there, and those in the second of three corner
radii once more, since that radius stands for two corners (`tallied_reflectText`). No other word is written
twice: the words that are (`repeats`) can be read off the declarations of the text.

The argument goes from words to tokens, declarations and segments, and is the same at each step: `Tallied`
says that one text has the markers of another, and those of some words once more.
-/

namespace BidiSheet

open Marker (isControl)
open Masked (named Intact)
open Tokens (words source lay layWords mapGroups mapBefore AllIntact)
open Words (alone join cornerWords)

variable {spans : List Span}

/-! ### Counting markers -/

/-- How often the marker with number `i` stands in a text. -/
def tally (i : Nat) (t : Text) : Nat := (Marker.numbers t).count i

/-- Behind a text that is intact the markers of another one are counted on. -/
theorem tally_append {s : Text} (h : Intact spans s) (i : Nat) (t : Text) :
    tally i (s ++ t) = tally i s + tally i t := by
  rw [tally, h.numbers_append, List.count_append]
  rfl

/-- A text without control characters has no marker. -/
theorem tally_of_plain {t : Text} (h : Plain t) (i : Nat) : tally i t = 0 := by
  induction t with
  | nil => rw [tally, Marker.numbers_nil, List.count_nil]
  | cons c t ih =>
    rw [tally, Marker.numbers_plain (h c List.mem_cons_self)]
    exact ih fun d hd => h d (List.mem_cons_of_mem c hd)

/-- How often the marker with number `i` stands in some texts. -/
def tallies (i : Nat) (ws : List Text) : Nat := (ws.map (tally i)).sum

@[simp] theorem tallies_nil (i : Nat) : tallies i [] = 0 := rfl

/-- The first text is counted with the others. -/
@[simp] theorem tallies_cons (i : Nat) (w : Text) (ws : List Text) :
    tallies i (w :: ws) = tally i w + tallies i ws := by
  rw [tallies, List.map_cons, List.sum_cons, tallies]

/-- Lists of texts are counted one after the other. -/
@[simp] theorem tallies_append (i : Nat) (ws vs : List Text) :
    tallies i (ws ++ vs) = tallies i ws + tallies i vs := by
  rw [tallies, List.map_append, List.sum_append, tallies, tallies]

/-- The texts are counted by the numbers of all of them. -/
theorem tallies_eq_count (i : Nat) (ws : List Text) :
    tallies i ws = (ws.flatMap Marker.numbers).count i := by
  induction ws with
  | nil => rfl
  | cons w ws ih => rw [tallies_cons, ih, List.flatMap_cons, List.count_append, tally]

/-- The text `t` has the markers of `s`, and those of the words `ws` once more, which are all in `s`. -/
structure Tallied (spans : List Span) (s t : Text) (ws : List Text) : Prop where
  left : Intact spans s
  right : Intact spans t
  eq (i : Nat) : tally i t = tally i s + tallies i ws
  le (i : Nat) : tallies i ws ≤ tally i s

namespace Tallied

variable {s s' t t' : Text} {ws ws' : List Text}

theorem refl (h : Intact spans t) : Tallied spans t t [] :=
  ⟨h, h, fun _ => rfl, fun _ => Nat.zero_le _⟩

/-- Texts without control characters have the same markers, none. -/
theorem of_plain (hs : Plain s) (ht : Plain t) : Tallied spans s t [] where
  left := .of_plain hs
  right := .of_plain ht
  eq i := by rw [tally_of_plain hs, tally_of_plain ht, tallies_nil]
  le i := Nat.zero_le _

/-- What is written once more in each of two parts is written once more in the whole. -/
theorem append (h : Tallied spans s t ws) (h' : Tallied spans s' t' ws') :
    Tallied spans (s ++ s') (t ++ t') (ws ++ ws') where
  left := h.left.append h'.left
  right := h.right.append h'.right
  eq i := by
    have heq := h.eq i
    have heq' := h'.eq i
    rw [tally_append h.left, tally_append h.right, tallies_append]
    omega
  le i := by
    have hle := h.le i
    have hle' := h'.le i
    rw [tally_append h.left, tallies_append]
    omega

/-- The numbers of the markers, but for their order. -/
theorem perm (h : Tallied spans s t ws) :
    (Marker.numbers t).Perm (Marker.numbers s ++ ws.flatMap Marker.numbers) := by
  rw [List.perm_iff_count]
  intro i
  rw [List.count_append, ← tallies_eq_count]
  exact h.eq i

/-- What is written once more was there already. -/
theorem subperm (h : Tallied spans s t ws) :
    (ws.flatMap Marker.numbers).Subperm (Marker.numbers s) := by
  rw [List.subperm_ext_iff]
  intro i _
  rw [← tallies_eq_count]
  exact h.le i

/-- No marker is lost. -/
theorem length_le (h : Tallied spans s t ws) :
    (Marker.numbers s).length ≤ (Marker.numbers t).length := by
  rw [h.perm.length_eq, List.length_append]
  omega

/-- No marker is written more than twice. -/
theorem length_le_double (h : Tallied spans s t ws) :
    (Marker.numbers t).length ≤ 2 * (Marker.numbers s).length := by
  have hle := h.subperm.length_le
  rw [h.perm.length_eq, List.length_append]
  omega

end Tallied

/-! ### Words -/

/-- Joined words are intact if the words are. -/
theorem intact_join {ws : List Text} (h : ∀ w ∈ ws, Intact spans w) : Intact spans (join ws) := by
  induction ws with
  | nil => exact Alike.nil
  | cons w ws ih =>
    have hw := h w List.mem_cons_self
    have hrest := ih fun v hv => h v (List.mem_cons_of_mem w hv)
    cases ws with
    | nil => rwa [Words.join_singleton]
    | cons v ws =>
      rw [Words.join_cons_cons]
      exact hw.append (Alike.plain (by decide) hrest)

/-- The blanks between words add no marker. -/
theorem tally_join {ws : List Text} (h : ∀ w ∈ ws, Intact spans w) (i : Nat) :
    tally i (join ws) = tallies i ws := by
  induction ws with
  | nil => exact tally_of_plain (fun _ hc => absurd hc List.not_mem_nil) i
  | cons w ws ih =>
    have hrest := ih fun v hv => h v (List.mem_cons_of_mem w hv)
    cases ws with
    | nil => rw [Words.join_singleton, tallies_cons, tallies_nil, Nat.add_zero]
    | cons v ws =>
      rw [Words.join_cons_cons, tally_append (h w List.mem_cons_self), tallies_cons, ← hrest]
      exact congrArg _ (congrArg (List.count i) (Marker.numbers_plain (by decide) _))

namespace Words

/-- The word that is written twice when corners are exchanged: the second of three. -/
def repeated : List Text → List Text
  | [_, b, _] => [b]
  | _ => []

end Words

/-- Words that are exchanged one for one, and restyled if they change, have no markers that change. -/
theorem tallies_of_restyled {ws ws' : List Text}
    (h : List.Forall₂ (fun w w' => w' = w ∨ Words.Restyled w w') ws ws') (i : Nat) :
    tallies i ws' = tallies i ws := by
  induction h with
  | nil => rfl
  | @cons w w' ws ws' hw _ ih =>
    rw [tallies_cons, tallies_cons, ih]
    rcases hw with rfl | ⟨hquiet, hquiet', -⟩
    · rfl
    · rw [tally_of_plain hquiet.plain, tally_of_plain hquiet'.plain]

/-- Restyled words are intact, as they have no control characters. -/
theorem intact_of_restyled {ws ws' : List Text}
    (h : List.Forall₂ (fun w w' => w' = w ∨ Words.Restyled w w') ws ws')
    (hws : ∀ w ∈ ws, Intact spans w) : ∀ w ∈ ws', Intact spans w := by
  induction h with
  | nil => exact hws
  | @cons w w' ws ws' hw _ ih =>
    obtain ⟨hhead, htail⟩ := List.forall_mem_cons.mp hws
    refine List.forall_mem_cons.mpr ⟨?_, ih htail⟩
    rcases hw with rfl | ⟨-, hquiet, -⟩
    · exact hhead
    · exact .of_plain hquiet.plain

/-- The sides of a box keep their markers. -/
theorem tallies_box (i : Nat) (ws : List Text) : tallies i (Words.box ws) = tallies i ws := by
  unfold Words.box
  split
  · simp only [tallies_cons, tallies_nil]
    omega
  · rfl

/-- Of three corners the second is written twice. -/
theorem tallies_corners (i : Nat) (ws : List Text) :
    tallies i (cornerWords ws).flatten = tallies i ws + tallies i (Words.repeated ws) := by
  rcases ws with _ | ⟨a, _ | ⟨b, _ | ⟨c, _ | ⟨d, _ | ⟨e, ws⟩⟩⟩⟩⟩
  case cons.cons.cons.nil =>
    simp only [cornerWords, Words.repeated, List.flatten_cons, List.flatten_nil, tallies_append,
      tallies_cons, tallies_nil]
    omega
  all_goals simp only [cornerWords, Words.corners, Words.flatten_alone, Words.repeated, tallies_cons,
    tallies_nil]
  all_goals omega

/-- The corner that is written twice is one of the corners. -/
theorem tallies_repeated_le (i : Nat) (ws : List Text) :
    tallies i (Words.repeated ws) ≤ tallies i ws := by
  unfold Words.repeated
  split
  · simp only [tallies_cons, tallies_nil]
    omega
  · exact Nat.zero_le _

/-! ### Tokens -/

namespace Tokens

variable {ts us : List Token} {t : Token}

/-- The first part of tokens that are intact is intact. -/
theorem AllIntact.append_left (h : AllIntact spans (ts ++ us)) : AllIntact spans ts :=
  fun u hu => h u (List.mem_append_left us hu)

/-- The last part of tokens that are intact is intact. -/
theorem AllIntact.append_right (h : AllIntact spans (ts ++ us)) : AllIntact spans us :=
  fun u hu => h u (List.mem_append_right ts hu)

/-- The words of tokens that are intact are intact. -/
theorem AllIntact.words (h : AllIntact spans ts) : ∀ w ∈ words ts, Intact spans w := by
  intro w hw
  obtain ⟨t, ht, rfl⟩ := List.mem_map.mp hw
  exact (h t (List.mem_filter.mp ht).1).2

/-- The text of tokens that are intact is intact. -/
theorem AllIntact.source (h : AllIntact spans ts) : Intact spans (source ts) := by
  induction ts with
  | nil => exact Alike.nil
  | cons t ts ih =>
    obtain ⟨hgap, htext⟩ := h t List.mem_cons_self
    exact ((Intact.of_plain hgap).append htext).append (ih h.tail)

/-- Gaps have no markers. -/
theorem tally_source_cons (h : AllIntact spans (t :: ts)) (i : Nat) :
    tally i (source (t :: ts)) = tally i t.text + tally i (source ts) := by
  obtain ⟨hgap, htext⟩ := h t List.mem_cons_self
  have hintact : Intact spans t.gap := .of_plain hgap
  rw [source_cons, tally_append (hintact.append htext), tally_append hintact, tally_of_plain hgap,
    Nat.zero_add]

/-- The words of tokens have no more markers than their text. -/
theorem tallies_words_le (h : AllIntact spans ts) (i : Nat) :
    tallies i (words ts) ≤ tally i (source ts) := by
  induction ts with
  | nil => exact Nat.zero_le _
  | cons t ts ih =>
    have hrest := ih h.tail
    rw [tally_source_cons h]
    by_cases ht : t.kind = .word
    · rw [words_word ht, tallies_cons]
      omega
    · rw [words_other ht]
      omega

/-- Laying words exchanges their markers, and leaves those of all other tokens. -/
theorem tally_lay {wss : List (List Text)} (h : AllIntact spans ts)
    (hlen : wss.length = (words ts).length) (hne : ∀ ws ∈ wss, ws ≠ [])
    (hwss : ∀ ws ∈ wss, ∀ w ∈ ws, Intact spans w) :
    Intact spans (source (lay ts wss)) ∧
      ∀ i, tally i (source (lay ts wss)) + tallies i (words ts)
        = tally i (source ts) + tallies i wss.flatten := by
  induction ts generalizing wss with
  | nil =>
    rw [List.length_eq_zero_iff.mp hlen]
    exact ⟨Alike.nil, fun i => rfl⟩
  | cons t ts ih =>
    obtain ⟨hgap, htext⟩ := h t List.mem_cons_self
    have hintact : Intact spans t.gap := .of_plain hgap
    by_cases ht : t.kind = .word
    · rw [words_word ht] at hlen ⊢
      cases wss with
      | nil => cases hlen
      | cons ws wss =>
        have hws := hwss ws List.mem_cons_self
        obtain ⟨hrest, heq⟩ := ih h.tail (Nat.succ.inj hlen)
          (fun vs hvs => hne vs (List.mem_cons_of_mem ws hvs))
          (fun vs hvs => hwss vs (List.mem_cons_of_mem ws hvs))
        have hlaid : Intact spans (t.gap ++ join ws) := hintact.append (intact_join hws)
        rw [lay_word ht, source_append, source_lay (hne ws List.mem_cons_self)]
        refine ⟨hlaid.append hrest, fun i => ?_⟩
        have heq := heq i
        rw [tally_append hlaid, tally_append hintact, tally_of_plain hgap, tally_join hws,
          tally_source_cons h, List.flatten_cons, tallies_append, tallies_cons]
        omega
    · rw [words_other ht] at hlen ⊢
      obtain ⟨hrest, heq⟩ := ih h.tail hlen hne hwss
      rw [lay_other ht, source_cons]
      refine ⟨(hintact.append htext).append hrest, fun i => ?_⟩
      have heq := heq i
      rw [tally_append (hintact.append htext), tally_append hintact, tally_of_plain hgap,
        tally_source_cons h]
      omega

/-- What is true of the words that are laid is true of the tokens. -/
theorem tallied_layWords {f : List Text → List Text} {g : List Text → List (List Text)}
    {r : List Text → List Text} (hspells : Words.Spells f g)
    (hintact : ∀ ws, (∀ w ∈ ws, Intact spans w) → ∀ l ∈ g ws, ∀ w ∈ l, Intact spans w)
    (heq : ∀ i ws, tallies i (g ws).flatten = tallies i ws + tallies i (r ws))
    (hle : ∀ i ws, tallies i (r ws) ≤ tallies i ws) (h : AllIntact spans ts) :
    Tallied spans (source ts) (source (layWords g ts)) (r (words ts)) := by
  obtain ⟨hlaid, hlay⟩ := tally_lay h (hspells.length_eq (words ts)) (hspells.ne_nil (words ts))
    (hintact _ h.words)
  refine ⟨h.source, hlaid, fun i => ?_, fun i => ?_⟩
  · have hlay := hlay i
    have heq := heq i (words ts)
    have hwords := tallies_words_le h i
    rw [layWords]
    omega
  · exact Nat.le_trans (hle i _) (tallies_words_le h i)

/-- Words that are restyled in their places leave all markers. -/
theorem tallied_alone {f : List Text → List Text}
    (hf : ∀ ws, List.Forall₂ (fun w w' => w' = w ∨ Words.Restyled w w') ws (f ws))
    (h : AllIntact spans ts) :
    Tallied spans (source ts) (source (layWords (fun ws => alone (f ws)) ts)) [] := by
  refine tallied_layWords (r := fun _ => [])
    (Words.spells_alone fun ws => (hf ws).length_eq.symm) ?_ ?_ (fun _ _ => Nat.zero_le _) h
  · intro ws hws l hl w hw
    obtain ⟨v, hv, rfl⟩ := List.mem_map.mp hl
    rw [List.mem_singleton.mp hw]
    exact intact_of_restyled (hf ws) hws v hv
  · intro i ws
    rw [Words.flatten_alone]
    exact tallies_of_restyled (hf ws) i

/-- A reflected box has the markers of the box. -/
theorem tallied_box (h : AllIntact spans ts) :
    Tallied spans (source ts) (source (layWords (fun ws => alone (Words.box ws)) ts)) [] := by
  refine tallied_layWords (r := fun _ => []) (Words.spells_alone Words.length_box) ?_ ?_
    (fun _ _ => Nat.zero_le _) h
  · intro ws hws l hl w hw
    exact hws w (Words.subset_box ws l hl hw)
  · intro i ws
    rw [Words.flatten_alone]
    exact tallies_box i ws

/-- Reflected corners have the markers of the corners, and those of the repeated one once more. -/
theorem tallied_corners (h : AllIntact spans ts) :
    Tallied spans (source ts) (source (layWords cornerWords ts)) (Words.repeated (words ts)) :=
  tallied_layWords Words.spells_corners
    (fun ws hws l hl w hw => hws w (Words.subset_cornerWords ws l hl hw))
    tallies_corners tallies_repeated_le h

variable {kind : TokenKind} {F : List Token → List Token} {r : List Token → List Text}

/-- Groups are counted one by one. -/
theorem tallied_mapGroups
    (hF : ∀ us, AllIntact spans us → Tallied spans (source us) (source (F us)) (r us))
    (h : AllIntact spans ts) :
    Tallied spans (source ts) (source (mapGroups kind F ts))
      ((ts.splitOnP fun t => t.kind = kind).flatMap r) := by
  induction ts using induction_groups kind with
  | free group hgroup =>
    rw [mapGroups_free hgroup, splitOnP_free hgroup, List.flatMap_singleton]
    exact hF group h
  | split group t ts hgroup ht ih =>
    obtain ⟨hgap, htext⟩ := h.append_right t List.mem_cons_self
    have hself := Tallied.refl ((Intact.of_plain hgap).append htext)
    rw [mapGroups_split hgroup ht, splitOnP_split hgroup ht, List.flatMap_cons, source_append, source_append,
      source_cons, source_cons]
    exact (hF group h.append_left).append (hself.append (ih h.append_right.tail))

/-- The part before the first divider is counted on its own. -/
theorem tallied_mapBefore
    (hF : ∀ us, AllIntact spans us → Tallied spans (source us) (source (F us)) [])
    (h : AllIntact spans ts) : Tallied spans (source ts) (source (mapBefore kind F ts)) [] := by
  rw [← List.takeWhile_append_dropWhile (p := (·.kind ≠ kind)) (l := ts)] at h
  have happend := (hF _ h.append_left).append (Tallied.refl h.append_right.source)
  rw [← source_append, ← source_append, List.takeWhile_append_dropWhile] at happend
  exact happend

end Tokens

/-! ### Actions -/

namespace Action

/-- The words of a value that an action writes twice: the second of three corners. -/
def repeats : Action → Value → List Text
  | .corners, v =>
    if v.isCorners then
      (v.tokens.splitOnP fun t => t.kind = .slash).flatMap fun group => Words.repeated (words group)
    else []
  | _, _ => []

/-- **An action writes all markers once more that are in the words it repeats, and no other.** -/
theorem tallied_revise (action : Action) {v : Value} (h : AllIntact spans v.tokens) :
    Tallied spans (source v.tokens) (source (action.revise v).tokens) (action.repeats v) := by
  have hno : ∀ groups : List (List Token), groups.flatMap (fun _ => ([] : List Text)) = [] := by simp
  cases action with
  | rename vocabulary => exact .refl h.source
  | swap vocabulary => exact Tokens.tallied_alone (Words.forall₂_map_swap vocabulary) h
  | box =>
    rw [revise]
    split
    · exact Tokens.tallied_box h
    · exact .refl h.source
  | corners =>
    rw [revise, repeats]
    split
    · exact Tokens.tallied_mapGroups (fun us => Tokens.tallied_corners) h
    · exact .refl h.source
  | position =>
    rw [repeats, ← hno (v.tokens.splitOnP fun t => t.kind = .comma)]
    exact Tokens.tallied_mapGroups (fun us => Tokens.tallied_mapBefore fun us =>
      Tokens.tallied_alone Words.forall₂_position) h
    all_goals simp
  | offset =>
    rw [repeats, ← hno (v.tokens.splitOnP fun t => t.kind = .comma)]
    exact Tokens.tallied_mapGroups (fun us => Tokens.tallied_alone Words.forall₂_offset) h
    all_goals simp

end Action

/-! ### Declarations and texts -/

namespace Declaration

/-- The words of a declaration that are written twice when it is reflected. -/
def repeats (table : Table) (d : Declaration) : List Text :=
  match table.ruleFor (lower d.base) with
  | none => []
  | some rule => rule.action.repeats (Value.read d.value)

variable {d : Declaration}

/-- A declaration under a rule has the markers of the declaration, and those of what its action repeats. -/
theorem tallied_under (h : IntactParts spans d) (rule : Rule) :
    Tallied spans d.text (d.under rule).text (rule.action.repeats (Value.read d.value)) := by
  have htext : ∀ e : Declaration, e.text
      = (e.lead ++ (e.hack ++ e.vendor)) ++ (e.base ++ ((e.gap ++ [':']) ++ (e.value ++ e.tail))) := by
    simp [text, name]
  have hlead : Intact spans (d.lead ++ (d.hack ++ d.vendor)) :=
    Intact.append h.lead (.of_plain (h.plain_hack.append h.plain_vendor))
  have hcolon : Intact spans [':'] := Alike.plain (by decide) Alike.nil
  have hgap : Intact spans (d.gap ++ [':']) := Intact.append h.gap hcolon
  rw [htext, htext]
  by_cases hr : ∃ v, rule.action = .rename v
  · obtain ⟨v, hv⟩ := hr
    have hbase : Tallied spans d.base (v.swap d.base) [] := by
      rcases v.swap_eq_or_quiet d.base with hs | ⟨hquiet, hquiet'⟩
      · rw [hs]
        exact .refl (.of_plain h.plain_base)
      · exact .of_plain hquiet.plain hquiet'.plain
    rw [under_rename d hv, hv]
    exact (Tallied.refl hlead).append
      (hbase.append ((Tallied.refl hgap).append (.refl (Intact.append h.value h.tail))))
  · have hvalue : Tallied spans d.value (rule.action.onValue (Value.read d.value)).render
        (rule.action.repeats (Value.read d.value)) := by
      have htail : Intact spans (Value.read d.value).tail := .of_plain (Value.alike_read h.value).plain_tail
      have happend := (rule.action.tallied_revise (Value.allIntact_read h.value)).append (.refl htail)
      rwa [Value.source_tokens_read, ← rule.action.render_onValue_read, List.append_nil] at happend
    have happend := (Tallied.refl hlead).append ((Tallied.refl (.of_plain h.plain_base)).append
      ((Tallied.refl hgap).append (hvalue.append (.refl h.tail))))
    rw [under_of_ne d fun v hv => hr ⟨v, hv⟩]
    rwa [List.nil_append, List.nil_append, List.nil_append, List.append_nil] at happend

/-- A reflected declaration has the markers of the declaration, and those of what is repeated. -/
theorem tallied_reflect (h : IntactParts spans d) (table : Table) :
    Tallied spans d.text (d.reflect table).text (d.repeats table) := by
  unfold Declaration.reflect repeats
  cases table.ruleFor (lower d.base) with
  | none => exact .refl (AlikeParts.text h)
  | some rule => exact tallied_under h rule

end Declaration

/-- The words of a text that are written twice when it is reflected. -/
def repeats (table : Table) (t : Text) : List Text :=
  (declarations t).flatMap (Declaration.repeats table)

/-- The words of a segment that are written twice. -/
def bodyRepeats (table : Table) (body : Text) : List Text :=
  (Declaration.read? body).toList.flatMap (Declaration.repeats table)

/-- What is repeated is found segment by segment. -/
theorem repeats_eq (table : Table) (t : Text) :
    repeats table t = (Segments.read t).bodies.flatMap (bodyRepeats table) := by
  rw [repeats, declarations, List.filterMap_eq_flatMap_toList, List.flatMap_assoc]
  rfl

/-- A reflected body has the markers of the body, and those of what is repeated. -/
theorem tallied_reflectBody {body : Text} (h : Intact spans body) (table : Table) :
    Tallied spans body (reflectBody table body) (bodyRepeats table body) := by
  unfold reflectBody bodyRepeats
  cases hd : Declaration.read? body with
  | none => exact .refl h
  | some d =>
    have hreflect := Declaration.tallied_reflect (Declaration.intactParts_of_read? h hd) table
    rwa [Option.toList_some, List.flatMap_singleton, ← Declaration.text_read hd]

/-- Reflected segments have the markers of the segments, and those of what is repeated in them. -/
theorem tallied_closed {closed : List Segment}
    (h : ∀ s ∈ closed, Intact spans s.body ∧ isControl s.closer = false) (table : Table) :
    Tallied spans (closed.flatMap Segment.text)
      ((closed.map (Segment.reflect table)).flatMap Segment.text)
      (((closed.filter (·.closer ≠ openBrace)).map Segment.body).flatMap (bodyRepeats table)) := by
  induction closed with
  | nil => exact .refl Alike.nil
  | cons s closed ih =>
    obtain ⟨hbody, hcloser⟩ := h s List.mem_cons_self
    have hrest := ih fun r hr => h r (List.mem_cons_of_mem s hr)
    have hself : Tallied spans [s.closer] [s.closer] [] := .refl (Alike.plain hcloser Alike.nil)
    rw [List.map_cons, List.flatMap_cons, List.flatMap_cons, Segment.reflect_eq]
    by_cases hs : s.closer = openBrace
    · rw [if_pos hs, List.filter_cons_of_neg (by simpa using hs)]
      exact ((Tallied.refl hbody).append hself).append hrest
    · have happend := ((tallied_reflectBody hbody table).append hself).append hrest
      rw [if_neg hs, List.filter_cons_of_pos (by simpa using hs), List.map_cons, List.flatMap_cons]
      rwa [List.append_nil] at happend

/-- **Reflecting writes the markers of the repeated words twice, and all others once.** -/
theorem tallied_reflectText {t : Text} (h : Intact spans t) (table : Table) :
    Tallied spans t (reflectText table t).text (repeats table t) := by
  have hparts := Segments.alike_read h
  have hclosed : ∀ s ∈ (Segments.read t).closed, Intact spans s.body ∧ isControl s.closer = false :=
    fun s hs =>
      have hs := List.forall₂_same.mp hparts.closed s hs
      ⟨hs.body, hs.plain_closer⟩
  have htail : Tallied spans (Segments.read t).tail ((Segments.read t).reflect table).tail
      ((if (Segments.read t).tailMayDeclare then [(Segments.read t).tail] else []).flatMap
        (bodyRepeats table)) := by
    rw [Segments.tail_reflect]
    split
    · rw [List.flatMap_singleton]
      exact tallied_reflectBody hparts.tail table
    · exact .refl hparts.tail
  have happend := (tallied_closed hclosed table).append htail
  rw [← Segments.text, Segments.text_read, ← List.flatMap_append, ← Segments.bodies, ← repeats_eq]
    at happend
  exact happend

/-! ### Kept pieces -/

/-- An intact text names as many kept pieces as it has markers. -/
theorem Masked.Intact.countP_isKept_named {t : Text} (h : Intact spans t) :
    (named spans t).countP Piece.isKept = (Marker.numbers t).length := by
  induction h using Intact.induction with
  | nil => rw [Masked.named_nil, Marker.numbers_nil]; rfl
  | plain c t hc _ ih =>
    rw [Masked.named_plain hc, Piece.countP_isKept_plain, ih, Marker.numbers_plain hc]
  | mark i t hi hlt _ ih =>
    rw [Masked.named_mark hi (List.getElem?_eq_getElem hlt), Piece.countP_isKept_kept, ih,
      Marker.numbers_mark hi, List.length_cons]

end BidiSheet
