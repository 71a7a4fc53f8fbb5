import BidiSheet.Proofs.Composition
import BidiSheet.Proofs.Reflected

/-!
# A no-flip comment guards one declaration

A no-flip comment between two declarations is kept together with the declaration behind it, up to its
semicolon (`Guarded`). All else is reflected as if neither of them were there
(`Style.reflect_insert_guarded`).

In the masked text the comment and its declaration are one marker more, and the markers behind it have higher
numbers. Numbers do not matter (`alike_reflectText`). The new marker goes to the front of the next segment,
where blanks and markers do not matter either: they are part of what stands before the property
(`Declaration.read?_append`), and are written there again (`reflectText_insert`).
-/

namespace BidiSheet

open Masked (named Intact)

/-! ### What a no-flip comment guards -/

/-- A no-flip comment with its end, blanks and comments, and a declaration with the semicolon that ends it,
whatever comes behind them. -/
structure Guarded (comment blanks declaration : Text) : Prop where
  opens : ∃ u, comment = '/' :: '*' :: u ∧ ∀ rest, Extent.comment (u ++ rest) = u.length
  isNoFlip : Piece.isNoFlip comment = true
  trivia : Extent.trivia (blanks ++ declaration) = blanks.length
  ends : ∀ rest, Extent.rule 0 (declaration ++ rest) = declaration.length
  last : declaration.getLast? = some ';'

namespace Guarded

/-- What ends before one more blank ends there whatever follows. -/
theorem of_blank {u blanks declaration : Text} (hopens : Extent.comment (u ++ [' ']) = u.length)
    (hnoFlip : Piece.isNoFlip ('/' :: '*' :: u) = true)
    (htrivia : Extent.trivia (blanks ++ declaration) = blanks.length)
    (hends : Extent.rule 0 (declaration ++ [' ']) = declaration.length)
    (hlast : declaration.getLast? = some ';') : Guarded ('/' :: '*' :: u) blanks declaration where
  opens := ⟨u, rfl, fun rest => Extent.comment_congr (List.cons_ne_nil _ _) rest hopens⟩
  isNoFlip := hnoFlip
  trivia := htrivia
  ends _ := Extent.rule_congr (List.cons_ne_nil _ _) (fun h => absurd h (by decide)) hends
  last := hlast

variable {comment blanks declaration : Text} (h : Guarded comment blanks declaration)

include h

theorem declaration_ne_nil : declaration ≠ [] := by
  rintro rfl
  cases h.last

/-- A guarded declaration begins with no trivia. -/
theorem trivia_declaration (rest : Text) : Extent.trivia (declaration ++ rest) = 0 := by
  obtain ⟨c, cs, hcs⟩ := List.exists_cons_of_ne_nil h.declaration_ne_nil
  have hzero := Extent.trivia_drop_trivia (blanks ++ declaration)
  rw [h.trivia, List.drop_left, hcs] at hzero
  obtain ⟨hblank, hcomment⟩ := Extent.of_trivia_eq_zero hzero
  rw [hcs, List.cons_append]
  refine Extent.trivia_stop hblank ?_
  cases cs with
  | cons d cs => exact hcomment
  | nil =>
    have hlast := h.last
    rw [hcs] at hlast
    cases hlast
    exact Piece.opensComment_of_sign (by decide) _

/-- A comment guards the blanks and the declaration behind it. -/
theorem target_eq (rest : Text) :
    Extent.target (blanks ++ (declaration ++ rest)) = blanks.length + declaration.length := by
  have htrivia : Extent.trivia (blanks ++ (declaration ++ rest)) = blanks.length :=
    Extent.trivia_congr h.declaration_ne_nil (h.trivia_declaration rest) h.trivia
  have hne : Extent.target (blanks ++ (declaration ++ rest)) ≠ 0 := by
    rw [Ne, Extent.target_eq_zero_iff, htrivia, List.drop_left]
    rintro (hnil | hclosed)
    · exact h.declaration_ne_nil (List.append_eq_nil_iff.mp hnil).1
    · have hrule := h.ends rest
      rw [Extent.rule_of_startsClosed hclosed, eq_comm, List.length_eq_zero_iff] at hrule
      exact h.declaration_ne_nil hrule
  rw [Extent.target_eq hne, htrivia, List.drop_left, h.ends]

/-- The comment and what it guards are one kept piece. -/
theorem reads {ps : List Piece} (hps : Piece.Reads false ps) (joined : Bool) :
    Piece.Reads joined (.kept .noFlip (comment ++ (blanks ++ declaration)) :: ps) := by
  obtain ⟨u, rfl, hu⟩ := h.opens
  have hjoined : Piece.endsJoined ('/' :: '*' :: (u ++ (blanks ++ declaration))) = false := by
    obtain ⟨e, he⟩ := List.getLast?_eq_some_iff.mp h.last
    have hsplit : '/' :: '*' :: (u ++ (blanks ++ declaration))
        = ('/' :: '*' :: (u ++ (blanks ++ e))) ++ [';'] := by
      simp [he]
    rw [Piece.endsJoined, hsplit, List.getLast?_concat]
    rfl
  refine .kept (u := '*' :: (u ++ (blanks ++ declaration))) ?_ (hjoined ▸ hps)
  have hcomment : Extent.comment (u ++ (blanks ++ (declaration ++ Piece.source ps))) = u.length := hu _
  rw [List.cons_append, List.append_assoc, List.append_assoc,
    Piece.keptAt_noFlip_cons rfl hcomment h.isNoFlip, h.target_eq]
  simp [Nat.add_assoc, Nat.add_comm]

end Guarded

/-! ### Blanks and markers before a declaration -/

namespace Declaration

variable {u : Text}

/-- A marker is all trivia. -/
theorem trivia_text {i : Nat} (h : i < Marker.bound) : trivia (Marker.text i) = (Marker.text i).length := by
  have hmark := trivia_mark h []
  rwa [← Marker.text_append, List.append_nil, trivia, Nat.add_zero, ← Marker.length_text] at hmark

/-- Blanks and markers at the front of a segment stand before the property. -/
theorem read?_append (h : trivia u = u.length) (t : Text) :
    read? (u ++ t) = (read? t).map fun d => { d with lead := u ++ d.lead } := by
  have hlen := trivia_append h t
  have hdrop : (u ++ t).drop (trivia (u ++ t)) = t.drop (trivia t) := by
    rw [hlen, ← List.drop_drop, List.drop_left]
  have htake : (u ++ t).take (trivia (u ++ t)) = u ++ t.take (trivia t) := by
    rw [hlen, List.take_length_add_append]
  rw [read?_eq_assemble?, read?_eq_assemble?, bareOf, afterName, bareOf, hdrop, htake, ← bareOf,
    ← afterName]
  unfold assemble?
  split
  · rfl
  split <;> rfl

/-- What a rule makes of a declaration does not depend on what stands before the property. -/
theorem under_lead (rule : Rule) (d : Declaration) (lead : Text) :
    under rule { d with lead } = { d.under rule with lead } ∧
      (underRule? rule { d with lead }).isSome = (d.underRule? rule).isSome := by
  by_cases hr : ∃ v, rule.action = .rename v
  · obtain ⟨v, hv⟩ := hr
    rw [under_rename _ hv, under_rename _ hv, underRule?_rename _ hv, underRule?_rename _ hv,
      Option.isSome_map, Option.isSome_map]
    exact ⟨rfl, rfl⟩
  · have hne : ∀ v, rule.action ≠ .rename v := fun v hv => hr ⟨v, hv⟩
    rw [under_of_ne _ hne, under_of_ne _ hne, underRule?_of_ne _ hne, underRule?_of_ne _ hne]
    refine ⟨rfl, ?_⟩
    simp only
    split <;> rfl

/-- What leads a declaration does not matter to its reflection. -/
theorem reflect_lead (table : Table) (d : Declaration) (lead : Text) :
    reflect table { d with lead } = { d.reflect table with lead } ∧
      (reflect? table { d with lead }).isSome = (d.reflect? table).isSome := by
  unfold reflect reflect?
  simp only
  cases table.ruleFor (lower d.base) with
  | none => exact ⟨rfl, rfl⟩
  | some rule =>
    simp only [Option.isSome_map]
    exact under_lead rule d lead

end Declaration

section

variable {u : Text} (hu : Declaration.trivia u = u.length) (table : Table) (body : Text)
include hu

/-- Trivia before a body stay before its reflection. -/
theorem reflectBody_append : reflectBody table (u ++ body) = u ++ reflectBody table body := by
  unfold reflectBody
  rw [Declaration.read?_append hu]
  cases Declaration.read? body with
  | none => rfl
  | some d =>
    simp only [Option.map_some]
    rw [(Declaration.reflect_lead table d _).1]
    have hself : d.reflect table = { d.reflect table with lead := d.lead } :=
      (Declaration.reflect_lead table d d.lead).1
    have hlead := congrArg Declaration.lead hself
    simp [Declaration.text, Declaration.name, hlead]

/-- Trivia before a body do not matter to whether it is a declaration. -/
theorem isDeclaration_append :
    (Verdict.ofBody table (u ++ body)).isDeclaration = (Verdict.ofBody table body).isDeclaration := by
  rw [Verdict.isDeclaration_ofBody, Verdict.isDeclaration_ofBody, Declaration.read?_append hu,
    Option.isSome_map]

/-- Trivia before a body do not matter to whether it changes. -/
theorem isChange_append :
    (Verdict.ofBody table (u ++ body)).isChange = (Verdict.ofBody table body).isChange := by
  rw [Verdict.isChange_ofBody, Verdict.isChange_ofBody, Declaration.read?_append hu]
  cases Declaration.read? body with
  | none => rfl
  | some d =>
    rw [Option.map_some, Option.any_some, Option.any_some]
    exact (Declaration.reflect_lead table d _).2

end

/-! ### Blanks and markers between segments -/

namespace Segments

/-- Segments behind others that are closed. -/
def after (closed : List Segment) (ss : Segments) : Segments := ⟨closed ++ ss.closed, ss.tail⟩

/-- The segments of a text go on with those of the text behind it. -/
theorem read_append_eq (s t : Text) :
    read (s ++ t) = ((read t).prepend (read s).tail).after (read s).closed :=
  read_append s t

/-- Texts can be put before segments one after the other. -/
theorem prepend_prepend (u v : Text) (ss : Segments) : (ss.prepend v).prepend u = ss.prepend (u ++ v) := by
  obtain ⟨_ | _, _⟩ := ss <;> simp [prepend]

variable {closed : List Segment} {ss : Segments} {u : Text}

/-- What is put before segments does not change their delimiters. -/
theorem tailMayDeclare_prepend :
    ((ss.prepend u).after closed).tailMayDeclare = (ss.after closed).tailMayDeclare := by
  have hclosers : ((ss.prepend u).after closed).closed.map Segment.closer
      = (ss.after closed).closed.map Segment.closer := by
    obtain ⟨_ | _, _⟩ := ss <;> simp [prepend, after]
  rw [tailMayDeclare, tailMayDeclare, depth, depth, hasBrace_eq, hasBrace_eq, hclosers]

/-- Trivia before a segment stay before its reflection. -/
theorem text_reflect_cons (hu : Declaration.trivia u = u.length) (table : Table) (s : Segment) :
    (Segment.reflect table { s with body := u ++ s.body }).text = u ++ (s.reflect table).text := by
  rw [Segment.text, Segment.text, Segment.body_reflect, Segment.body_reflect, ← List.append_assoc]
  show _ ++ [s.closer] = _ ++ [s.closer]
  split
  · rfl
  · rw [reflectBody_append hu]

/-- **Blanks and markers before segments are written again**, and nothing else depends on them. -/
theorem text_reflect_prepend (table : Table) (closed : List Segment) (ss : Segments) :
    ∃ y, ∀ u, Declaration.trivia u = u.length →
      (((ss.prepend u).after closed).reflect table).text
        = (closed.map (Segment.reflect table)).flatMap Segment.text ++ (u ++ y) := by
  obtain ⟨_ | ⟨s, rest⟩, tail⟩ := ss
  · refine ⟨if (after closed ⟨[], tail⟩).tailMayDeclare then reflectBody table tail else tail, fun u hu => ?_⟩
    rw [text, tail_reflect, tailMayDeclare_prepend]
    simp only [prepend, after, reflect, List.append_nil]
    split
    · rw [reflectBody_append hu]
    · rfl
  · refine ⟨(s.reflect table).text ++ ((rest.map (Segment.reflect table)).flatMap Segment.text ++
      if (after closed ⟨s :: rest, tail⟩).tailMayDeclare then reflectBody table tail else tail),
      fun u hu => ?_⟩
    rw [text, tail_reflect, tailMayDeclare_prepend]
    simp only [prepend, after, reflect, List.map_append, List.map_cons, List.flatMap_append,
      List.flatMap_cons, List.append_assoc, text_reflect_cons hu]

/-- Trivia before segments do not matter to what is counted. -/
theorem count_prepend {p : Verdict → Bool} {table : Table}
    (hp : ∀ body, p (.ofBody table (u ++ body)) = p (.ofBody table body)) :
    ((ss.prepend u).after closed).count p table = (ss.after closed).count p table := by
  have hclosed : (((ss.prepend u).after closed).closed.countP fun s => p (s.verdict table))
      = (ss.after closed).closed.countP fun s => p (s.verdict table) := by
    obtain ⟨_ | ⟨s, rest⟩, tail⟩ := ss
    · rfl
    · have hfirst : p (Segment.verdict table { s with body := u ++ s.body }) = p (s.verdict table) := by
        unfold Segment.verdict
        split
        · rfl
        · exact hp s.body
      simp only [prepend, after, List.countP_append, List.countP_cons, hfirst]
  have htail : p (((ss.prepend u).after closed).tailVerdict table)
      = p ((ss.after closed).tailVerdict table) := by
    rw [tailVerdict, tailVerdict, tailMayDeclare_prepend]
    split
    · obtain ⟨_ | ⟨s, rest⟩, tail⟩ := ss
      · exact hp tail
      · rfl
    · rfl
  rw [count, count, hclosed, htail]

end Segments

/-! ### Texts that end in a delimiter and blanks -/

section

variable {s : Text}

/-- Behind the last delimiter there are only blanks. -/
theorem isBlank_of_mem_tail (h : endsSegment s = true) :
    ∀ c ∈ (Segments.read s).tail, isBlank c = true := by
  induction s using List.reverseRecOn with
  | nil => cases h
  | append_singleton s c ih =>
    rw [endsSegment_concat] at h
    split at h
    next hc =>
      have hdelimiter : isDelimiter c = false := by
        simpa using of_isBlank (p := fun c => !isDelimiter c) (by decide) hc
      have htail : (Segments.read (s ++ [c])).tail = (Segments.read s).tail ++ [c] := by
        rw [Segments.read_append, Segments.read, if_neg (by simp [hdelimiter])]
        rfl
      rw [htail]
      intro d hd
      rcases List.mem_append.mp hd with hd | hd
      · exact ih h d hd
      · rwa [List.mem_singleton.mp hd]
    · rw [Segments.tail_read_append_delimiter h]
      exact fun _ hd => absurd hd List.not_mem_nil

/-- Blanks are all trivia. -/
theorem trivia_of_blank {w : Text} (h : ∀ c ∈ w, isBlank c = true) :
    Declaration.trivia w = w.length := by
  induction w with
  | nil => rw [Declaration.trivia]; rfl
  | cons c w ih =>
    rw [Declaration.trivia_blank (h c List.mem_cons_self), ih fun d hd => h d (List.mem_cons_of_mem c hd),
      List.length_cons]

/-- Blanks and markers alone are no declaration. -/
theorem reflectBody_of_trivia {u : Text} (hu : Declaration.trivia u = u.length) (table : Table) :
    reflectBody table u = u := by
  have hnil : reflectBody table [] = [] := by
    rw [← textOf_ofBody, Verdict.ofBody_nil]
    rfl
  have happend := reflectBody_append hu table []
  rwa [hnil, List.append_nil] at happend

/-- Blanks have nothing to reflect. -/
theorem reflectBody_of_blank {w : Text} (h : ∀ c ∈ w, isBlank c = true) (table : Table) :
    reflectBody table w = w :=
  reflectBody_of_trivia (trivia_of_blank h) table

/-- The part of a reflected text that comes from a text `s`, to judge by the delimiters: it has as many as
`s`, and behind the last of them the same text. -/
def IsImage (s x : Text) : Prop :=
  (Segments.read x).closed.length = (Segments.read s).closed.length ∧
    (Segments.read x).tail = (Segments.read s).tail

/-- A text that ends a segment has an image that does. -/
theorem isImage_reflectText (h : endsSegment s = true) (table : Table) :
    IsImage s (reflectText table s).text := by
  rw [IsImage, Segments.read_reflect, Segments.tail_reflect,
    reflectBody_of_blank (isBlank_of_mem_tail h), ite_self]
  exact ⟨List.length_map _, rfl⟩

/-- There is only one such part. -/
theorem IsImage.unique {x x' y y' : Text} (h : IsImage s x) (h' : IsImage s x')
    (heq : x ++ y = x' ++ y') : x = x' ∧ y = y' := by
  have hnil : ∀ {a z : Text}, IsImage s a → IsImage s (a ++ z) → z = [] := by
    rintro a z ⟨hlen, htail⟩ ⟨hlen', htail'⟩
    rw [Segments.read_append_eq] at hlen' htail'
    rw [Segments.after, List.length_append, hlen] at hlen'
    have htext := Segments.text_read z
    rcases hz : Segments.read z with ⟨_ | ⟨s, ss⟩, t⟩
    · rw [hz] at htail' htext
      rw [Segments.prepend, Segments.after, htail] at htail'
      have ht : t = [] := by simpa using htail'
      rw [← htext, ht]
      rfl
    · rw [hz] at hlen'
      simp [Segments.prepend] at hlen'
  rcases List.append_eq_append_iff.mp heq with ⟨z, rfl, rfl⟩ | ⟨z, rfl, rfl⟩
  · rw [hnil h h', List.append_nil]
    exact ⟨rfl, rfl⟩
  · rw [hnil h' h, List.append_nil]
    exact ⟨rfl, rfl⟩

/-- **Blanks and markers may be put behind a delimiter.** They are written there again, and all else is
reflected and counted as before. -/
theorem reflectText_insert (h : endsSegment s = true) (table : Table) (t : Text) :
    ∃ y, (reflectText table (s ++ t)).text = (reflectText table s).text ++ y ∧
      ∀ u, Declaration.trivia u = u.length → (∀ c ∈ u, isDelimiter c = false) →
        (reflectText table (s ++ (u ++ t))).text = (reflectText table s).text ++ (u ++ y) ∧
        (reflectText table (s ++ (u ++ t))).declarations = (reflectText table (s ++ t)).declarations ∧
        (reflectText table (s ++ (u ++ t))).substitutions = (reflectText table (s ++ t)).substitutions := by
  have hblank := isBlank_of_mem_tail h
  have hw := trivia_of_blank hblank
  obtain ⟨y, hy⟩ := Segments.text_reflect_prepend table (Segments.read s).closed (Segments.read t)
  have htext : (reflectText table s).text
      = ((Segments.read s).closed.map (Segment.reflect table)).flatMap Segment.text
        ++ (Segments.read s).tail := by
    rw [text_reflectText, Segments.text, Segments.tail_reflect, reflectBody_of_blank hblank, ite_self]
    rfl
  refine ⟨y, ?_, fun u hu hdelimiter => ?_⟩
  · rw [htext, text_reflectText, Segments.read_append_eq, hy _ hw, List.append_assoc]
  · have htrivia : Declaration.trivia ((Segments.read s).tail ++ u)
        = ((Segments.read s).tail ++ u).length := by
      rw [Declaration.trivia_append hw, hu, List.length_append]
    have hread : Segments.read (s ++ (u ++ t))
        = ((Segments.read t).prepend ((Segments.read s).tail ++ u)).after (Segments.read s).closed := by
      rw [Segments.read_append_eq, Segments.read_append_of_no_delimiter hdelimiter, Segments.prepend_prepend]
    refine ⟨?_, ?_, ?_⟩
    · rw [htext, text_reflectText, hread, hy _ htrivia, List.append_assoc, List.append_assoc]
    · rw [declarations_reflectText, declarations_reflectText, hread, Segments.read_append_eq,
        Segments.count_prepend (isDeclaration_append htrivia table),
        Segments.count_prepend (isDeclaration_append hw table)]
    · rw [substitutions_reflectText, substitutions_reflectText, hread, Segments.read_append_eq,
        Segments.count_prepend (isChange_append htrivia table),
        Segments.count_prepend (isChange_append hw table)]

end

/-! ### Whole stylesheets -/

/-- How markers `0`, …, `n - 1` are numbered when one more has the number `k`. -/
def Inserted (k n : Nat) (i j : Nat) : Prop := i < n ∧ j = if i < k then i else i + 1

/-- Markers are renumbered one to one where one is inserted. -/
theorem biUnique_inserted (k n : Nat) : Relator.BiUnique (Inserted k n) := by
  constructor
  · rintro i j l ⟨-, rfl⟩ ⟨-, hj⟩
    split at hj <;> split at hj <;> omega
  · rintro i j l ⟨-, rfl⟩ ⟨-, rfl⟩
    rfl

namespace Style

section

variable {p q comment blanks declaration : Text} (hends : Piece.EndsSegment (pieces p))
  (hguarded : Guarded comment blanks declaration)

include hends hguarded

/-- The comment and what it guards are a piece between those before and those behind it. -/
theorem pieces_insert_guarded (q : Text) : pieces (p ++ (comment ++ (blanks ++ declaration) ++ q))
    = pieces p ++ .kept .noFlip (comment ++ (blanks ++ declaration)) :: pieces q := by
  have hcut := Piece.cut_of_reads ((Piece.reads_cut false p).append hends
    (hguarded.reads (Piece.reads_cut false q) false))
  rwa [Piece.source_append, Piece.source_kept, Piece.source_cut, Piece.source_cut] at hcut

/-- A guarded declaration is masked by one marker. -/
theorem text_insert_guarded (q : Text) :
    (Masked.ofSource (p ++ (comment ++ (blanks ++ declaration) ++ q))).text
      = (Masked.ofSource p).text ++ (Marker.text ((pieces p).countP Piece.isKept) ++
        Masked.maskText ((pieces p).countP Piece.isKept + 1) (pieces q)) := by
  rw [Masked.ofSource, pieces_insert_guarded hends hguarded, Masked.maskText_append, Nat.zero_add,
    Masked.maskText]
  rfl

/-- A guarded declaration is one more span. -/
theorem spans_insert_guarded (q : Text) :
    let stop := byteSize p + byteSize (comment ++ (blanks ++ declaration))
    (Masked.ofSource (p ++ (comment ++ (blanks ++ declaration) ++ q))).spans
      = (Masked.ofSource p).spans ++ ⟨.noFlip, byteSize p, stop, comment ++ (blanks ++ declaration)⟩ ::
        Masked.spansFrom stop (pieces q) := by
  intro stop
  rw [Masked.ofSource, pieces_insert_guarded hends hguarded, Masked.spansFrom_append, Nat.zero_add,
    Masked.spansFrom, Piece.source_pieces]
  rfl

/-- The span of the new marker. No word of it is exchanged, since it is no url. -/
theorem span_inserted (options : UrlOptions) (q : Text) :
    ∃ span, ((Masked.ofSource (p ++ (comment ++ (blanks ++ declaration) ++ q))).swapUrls
        options).spans[(pieces p).countP Piece.isKept]? = some span ∧
      span.text = comment ++ (blanks ++ declaration) := by
  rw [Masked.swapUrls, List.getElem?_map, spans_insert_guarded hends hguarded,
    ← Masked.length_spans_ofSource, List.getElem?_append_right (Nat.le_refl _), Nat.sub_self]
  exact ⟨_, rfl, rfl⟩

/-- The other markers, renumbered, have the same spans as before. -/
theorem sameSpan_inserted {i j : Nat} (hij : Inserted ((pieces p).countP Piece.isKept)
      ((pieces p).countP Piece.isKept + (pieces q).countP Piece.isKept) i j) :
    Masked.SameSpan (Masked.ofSource (p ++ q)).spans
      (Masked.ofSource (p ++ (comment ++ (blanks ++ declaration) ++ q))).spans i j := by
  obtain ⟨hi, rfl⟩ := hij
  have hlen := Masked.length_spans_ofSource p
  rw [spans_ofSource_append hends, spans_insert_guarded hends hguarded]
  split
  next hlt =>
    rw [← hlen] at hlt
    rw [Masked.SameSpan, List.getElem?_append_left hlt, List.getElem?_append_left hlt,
      List.getElem?_eq_getElem hlt]
    exact ⟨_, _, rfl, rfl, rfl, rfl⟩
  next hge =>
    obtain ⟨m, rfl⟩ : ∃ m, i = (pieces p).countP Piece.isKept + m :=
      ⟨i - (pieces p).countP Piece.isKept, by omega⟩
    obtain ⟨a, b, ha, hb, hsame⟩ := Masked.sameSpan_spansFrom (by omega : m < (pieces q).countP Piece.isKept)
      (byteSize p) (byteSize p + byteSize (comment ++ (blanks ++ declaration)))
    refine ⟨a, b, ?_, ?_, hsame⟩
    · rw [← hlen, List.getElem?_append_right (by omega), Nat.add_sub_cancel_left, ha]
    · rw [← hlen, Nat.add_assoc, List.getElem?_append_right (by omega), Nat.add_sub_cancel_left,
        List.getElem?_cons_succ, hb]

/-- What a reflected text with the new marker stands for. -/
theorem source_named_inserted (options : UrlOptions)
    (hcount : (pieces p).countP Piece.isKept < Marker.bound) {x y y' : Text}
    (hx : Intact (Masked.ofSource p).spans x)
    (h : Alike (Inserted ((pieces p).countP Piece.isKept)
      ((pieces p).countP Piece.isKept + (pieces q).countP Piece.isKept)) (x ++ y) (x ++ y')) :
    Piece.source (named ((Masked.ofSource (p ++ (comment ++ (blanks ++ declaration) ++ q))).swapUrls
        options).spans (x ++ (Marker.text ((pieces p).countP Piece.isKept) ++ y')))
      = Piece.source (named ((Masked.ofSource p).swapUrls options).spans x) ++
        (comment ++ (blanks ++ declaration) ++
          Piece.source (named ((Masked.ofSource (p ++ q)).swapUrls options).spans y)) := by
  have hnamed := h.named_eq fun i j hij => (sameSpan_inserted hends hguarded hij).swapUrls options
  rw [named_first hends options hx, named_first hends options hx] at hnamed
  obtain ⟨span, hspan, htext⟩ := span_inserted hends hguarded options q
  rw [named_first hends options hx, Marker.text_append, Masked.named_mark hcount hspan,
    ← List.append_cancel_left hnamed, Piece.source_append, Piece.source_kept, htext]

end

/-- Without the new marker, the text behind it is the same but for the numbers. -/
theorem alike_inserted {p q : Text}
    (hcount : (pieces p).countP Piece.isKept + (pieces q).countP Piece.isKept < Marker.bound) :
    Alike (Inserted ((pieces p).countP Piece.isKept)
        ((pieces p).countP Piece.isKept + (pieces q).countP Piece.isKept))
      ((Masked.ofSource p).text ++ Masked.maskText ((pieces p).countP Piece.isKept) (pieces q))
      ((Masked.ofSource p).text ++ Masked.maskText ((pieces p).countP Piece.isKept + 1) (pieces q)) := by
  have hsound : ∀ t, Piece.Sound (pieces t) := Piece.sound_cut false
  refine (Masked.alike_maskText (hsound p) (by omega) (by omega) ?_).append
    (Masked.alike_maskText (hsound q) (by omega) (by omega) ?_)
  · intro i hi
    exact ⟨by omega, by rw [if_pos (by omega)]⟩
  · intro i hi
    exact ⟨by omega, by rw [if_neg (by omega)]; omega⟩

/-- **One marker more, behind a delimiter and blanks, is written again**; the markers behind it have higher numbers,
and all else is reflected and counted as before. -/
theorem reflectText_inserted {p q : Text} (hp : endsSegment (Masked.ofSource p).text = true)
    (hcount : (pieces p).countP Piece.isKept + (pieces q).countP Piece.isKept < Marker.bound)
    (table : Table) :
    let k := (pieces p).countP Piece.isKept
    let x := (reflectText table (Masked.ofSource p).text).text
    let before := reflectText table ((Masked.ofSource p).text ++ Masked.maskText k (pieces q))
    let after := reflectText table
      ((Masked.ofSource p).text ++ (Marker.text k ++ Masked.maskText (k + 1) (pieces q)))
    ∃ y y', before.text = x ++ y ∧ after.text = x ++ (Marker.text k ++ y') ∧
      Alike (Inserted k (k + (pieces q).countP Piece.isKept)) (x ++ y) (x ++ y') ∧
      after.declarations = before.declarations ∧ after.substitutions = before.substitutions := by
  intro k x before after
  obtain ⟨y, hy, -⟩ := reflectText_insert hp table (Masked.maskText k (pieces q))
  obtain ⟨y', hy', hinsert⟩ := reflectText_insert hp table (Masked.maskText (k + 1) (pieces q))
  obtain ⟨htext, hdecl, hsub⟩ := hinsert (Marker.text k) (Declaration.trivia_text (by omega))
    fun c => Segments.not_isDelimiter_of_mem_text
  obtain ⟨halike, hdecl', hsub'⟩ := alike_reflectText (alike_inserted hcount) table
  rw [hy, hy'] at halike
  exact ⟨y, y', hy, htext, halike, hdecl.trans hdecl'.symm,
    hsub.trans (hsub' (biUnique_inserted _ _)).symm⟩

/-- **A no-flip comment guards the declaration behind it, and nothing else.** Let it stand behind a
delimiter and blanks. What comes before it is reflected to one part of the whole, to be told by its
delimiters and its last blanks, and that is what it is reflected to on its own. The comment and its
declaration are written behind that part as they are, and all else as if they were not there; no
declaration or change is counted for them, and one kept span. -/
theorem reflect_insert_guarded (style : Style) {p q comment blanks declaration : Text}
    (hbytes : byteSize (p ++ (comment ++ (blanks ++ declaration) ++ q)) < Marker.bound)
    (hp : endsSegment (Masked.ofSource p).text = true) (hguarded : Guarded comment blanks declaration) :
    let guarded := comment ++ (blanks ++ declaration)
    let masked := Masked.ofSource (p ++ q)
    let reflected := (reflectText style.table masked.text).text
    (∃ x y, reflected = x ++ y ∧ IsImage (Masked.ofSource p).text x) ∧
    ∀ x y, reflected = x ++ y → IsImage (Masked.ofSource p).text x →
      ∃ X Y sheet, Masked.unmask ⟨x, (masked.swapUrls style.urls).spans⟩ = .ok X ∧
        (style.reflect p).map Sheet.text = .ok X ∧
        style.reflect (p ++ q) = .ok sheet ∧ sheet.text = X ++ Y ∧
        style.reflect (p ++ (guarded ++ q)) = .ok
          { sheet with text := X ++ (guarded ++ Y), kept := sheet.kept + 1 } := by
  intro guarded masked reflected
  have hends := Masked.endsSegment_of_maskText hp
  have hkept := Masked.countP_isKept_pieces_lt hbytes
  have hcount := hkept
  rw [pieces_insert_guarded hends hguarded, List.countP_append, Piece.countP_isKept_kept] at hcount
  have hboth : (pieces (p ++ q)).countP Piece.isKept ≤ Marker.bound := by
    rw [pieces_append hends, List.countP_append]
    omega
  have hintact := (Masked.intact_ofSource (by omega : (pieces p).countP _ ≤ _)).reflectText style.table
  obtain ⟨y, y', hbefore, hafter, halike, hdecl, hsub⟩ :=
    reflectText_inserted hp (q := q) (by omega) style.table
  rw [← text_ofSource_append hends] at hbefore hdecl hsub
  rw [← text_insert_guarded hends hguarded] at hafter hdecl hsub
  have himage := isImage_reflectText hp style.table
  refine ⟨⟨_, y, hbefore, himage⟩, fun x z heq hx => ?_⟩
  obtain ⟨rfl, rfl⟩ := hx.unique himage (heq.symm.trans hbefore)
  refine ⟨Piece.source (named ((Masked.ofSource p).swapUrls style.urls).spans _),
    Piece.source (named (masked.swapUrls style.urls).spans z), _, ?_,
    congrArg (Except.map Sheet.text) (reflect_eq style (by omega)), reflect_eq style hboth, ?_, ?_⟩
  · rw [Masked.unmask, (intact_first hends style.urls hintact).unmaskFrom_eq,
      ← Alike.named_eq hintact fun i j hij => (sameSpan_first hends hij).swapUrls style.urls]
  · show Piece.source _ = _
    rw [hbefore, named_first hends style.urls hintact, Piece.source_append]
  · rw [reflect_eq style (Nat.le_of_lt hkept), hdecl, hsub, hafter,
      source_named_inserted hends hguarded style.urls (by omega) hintact halike]
    congr 2
    rw [spans_insert_guarded hends hguarded, spans_ofSource_append hends, List.length_append,
      List.length_cons, Masked.length_spansFrom, List.length_append, Masked.length_spansFrom,
      Nat.add_assoc]

/-- A url before the comment, a semicolon inside a string of the guarded declaration, and behind it a
declaration without a semicolon, whose value has a second no-flip comment. -/
theorem reflect_insert_guarded_content :
    let style : Style := { urls := { leftRight := true } }
    let p := "a\x7bleft:url(left.png); ".toList
    let q := " margin-left:url(right)/* noflip */left".toList
    let guarded := "/*@NoFlip */".toList ++ (" /**/".toList ++ "left:';left';".toList)
    byteSize (p ++ (guarded ++ q)) < Marker.bound ∧ endsSegment (Masked.ofSource p).text = true ∧
    Guarded "/*@NoFlip */".toList " /**/".toList "left:';left';".toList ∧
    ∃ X Y sheet, (style.reflect p).map Sheet.text = .ok X ∧
      style.reflect (p ++ q) = .ok sheet ∧ sheet.text = X ++ Y ∧
      style.reflect (p ++ (guarded ++ q)) = .ok
        { sheet with text := X ++ (guarded ++ Y), kept := sheet.kept + 1 } := by
  intro style p q guarded
  have hbytes : byteSize (p ++ (guarded ++ q)) < Marker.bound := by decide
  have hp : endsSegment (Masked.ofSource p).text = true := by decide +kernel
  have hguarded : Guarded "/*@NoFlip */".toList " /**/".toList "left:';left';".toList :=
    .of_blank (u := "@NoFlip */".toList) (by decide +kernel) (by decide +kernel) (by decide +kernel)
      (by decide +kernel) (by decide)
  obtain ⟨⟨x, y, heq, himage⟩, hall⟩ := reflect_insert_guarded style hbytes hp hguarded
  obtain ⟨X, Y, sheet, -, hfirst, hboth, htext, hinserted⟩ := hall x y heq himage
  exact ⟨hbytes, hp, hguarded, X, Y, sheet, hfirst, hboth, htext, hinserted⟩

end Style

end BidiSheet
