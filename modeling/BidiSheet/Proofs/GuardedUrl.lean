import BidiSheet.Proofs.Guard
import BidiSheet.Proofs.Unit.End

/-!
# Urls behind a no-flip comment

To the scanner of sources a url is one stretch: it skips strings and escaped letters in it and looks for the
closing bracket. The scanner of declarations, which measures what a no-flip comment guards, knows of no urls.
It reads them in units like all else, so in `url(a/*b)` it sees a comment that is never closed.

A declaration ends at a semicolon exactly if what stands before the semicolon is self-contained
(`Extent.SelfContained`): its units are complete, at none of them a declaration ends or a block opens, and
its brackets are closed again. So the two scanners agree about a url exactly if it is self-contained, and
urls are that unless they hold a comment, a brace or a bracket outside their strings
(`Piece.standsAlone_noFlip_url`).
-/

namespace BidiSheet

open HasSign (sign)

namespace Extent

variable {α : Type} [HasSign α]

/-! ### Inert letters -/

/-- Whether a letter is no quote, backslash, slash, bracket, brace or semicolon. -/
def isInert (c : α) : Bool := sign c = .other || sign c = .blank || sign c = .star

section inert

variable {c : α} {s t : List α} {us vs ws : List (List α)}

/-- Which letters are inert. -/
theorem isInert_iff : isInert c = true ↔ sign c = .other ∨ sign c = .blank ∨ sign c = .star := by
  simp [isInert, or_assoc]

/-- An inert letter is a unit of its own. -/
theorem unit_of_isInert (h : isInert c = true) (cs : List α) : unit c cs = 0 := by
  rcases isInert_iff.mp h with h | h | h <;>
    exact unit_eq_zero (by simp [h, Sign.isQuote]) (by simp [h]) (by simp [h]) cs

/-- At an inert letter nothing ends, and no bracket opens or closes. -/
theorem idle_of_isInert (h : isInert c = true) (depth : Nat) :
    halts depth [c] = false ∧ bracketsAfter depth [c] = depth := by
  refine idle_of_not_isRuleSign ?_ depth []
  rcases isInert_iff.mp h with h | h | h <;> rw [h] <;> rfl

/-- Inert letters are units of their own. -/
theorem cutsInto_inert_append (hs : ∀ c ∈ s, isInert c = true) :
    CutsInto (s ++ t) us ↔ ∃ vs, us = s.map ([·]) ++ vs ∧ CutsInto t vs := by
  induction s generalizing us with
  | nil => simp
  | cons c s ih =>
    obtain ⟨hc, hs⟩ := List.forall_mem_cons.mp hs
    rw [List.cons_append, cutsInto_cons_iff, unit_of_isInert hc, List.take_zero, List.drop_zero]
    simp only [ih hs, List.map_cons, List.cons_append]
    constructor
    · rintro ⟨_, rfl, vs, rfl, h⟩
      exact ⟨vs, rfl, h⟩
    · rintro ⟨vs, rfl, h⟩
      exact ⟨_, rfl, vs, rfl, h⟩

/-- A complete unit that begins in a text does not reach into inert letters behind it: none of them can
complete a string or a comment, and only a backslash at the end of the text would take one along. -/
theorem Closed.exists_of_append_eq {w r : List α} (hw : Closed w) (h : c :: s ++ t = w ++ r)
    (hs : ¬ EndsIn (· = .backslash) (c :: s)) (ht : ∀ c ∈ t, isInert c = true) :
    ∃ b, c :: s = w ++ b ∧ r = b ++ t := by
  rcases List.append_eq_append_iff.mp h with ⟨a, ha, rfl⟩ | ⟨b, hb, hr⟩
  · rcases List.eq_nil_or_concat a with rfl | ⟨a, d, rfl⟩
    · exact ⟨[], by simp [ha], rfl⟩
    rw [List.concat_eq_append] at ha ht
    have hd := isInert_iff.mp (ht d (by simp))
    rcases hw.last with ⟨v, e, rfl, hsign⟩ | ⟨e, e', rfl, hsign⟩
    · rw [← List.append_assoc] at ha
      obtain ⟨-, rfl⟩ := List.append_singleton_inj.mp ha
      rcases hd with hd | hd | hd <;> simp [hd, Sign.isQuote] at hsign
    · have hlen := congrArg List.length ha
      simp only [List.length_append, List.length_cons, List.length_nil] at hlen
      obtain rfl : s = [] := List.length_eq_zero_iff.mp (by omega)
      obtain ⟨rfl, -⟩ := List.cons.inj ha
      exact absurd ⟨[], e, rfl, hsign⟩ hs
  · exact ⟨b, hb, hr⟩

/-- Behind a text that ends in no backslash, inert letters are units of their own if all units are
complete. -/
theorem CutsInto.of_append_inert (h : CutsInto (s ++ t) ws) (hws : ∀ w ∈ ws, ¬ Unclosed w)
    (hs : ¬ EndsIn (· = .backslash) s) (ht : ∀ c ∈ t, isInert c = true) :
    ∃ us, ws = us ++ t.map ([·]) ∧ CutsInto s us := by
  induction ws generalizing s with
  | nil =>
    obtain ⟨rfl, rfl⟩ := List.append_eq_nil_iff.mp h.flatten_eq.symm
    exact ⟨[], rfl, .nil⟩
  | cons w ws ih =>
    obtain ⟨-, hrest⟩ := List.forall_mem_cons.mp hws
    cases s with
    | nil =>
      rw [List.nil_append, ← List.append_nil t, cutsInto_inert_append ht] at h
      obtain ⟨vs, hvs, hnil⟩ := h
      rw [cutsInto_nil_iff.mp hnil, List.append_nil] at hvs
      exact ⟨[], hvs, .nil⟩
    | cons c s =>
      generalize hr : c :: s ++ t = r at h
      cases h with
      | letter hq hb hc h =>
        rw [List.cons_append] at hr
        obtain ⟨rfl, rfl⟩ := List.cons.inj hr
        obtain ⟨us, rfl, hcut⟩ := ih h hrest fun he => hs (he.cons c)
        exact ⟨[c] :: us, rfl, .letter hq hb (opensComment_of_append hc) hcut⟩
      | @closed _ r _ hw h =>
        obtain ⟨b, hb, rfl⟩ := hw.exists_of_append_eq hr hs ht
        obtain ⟨us, rfl, hcut⟩ := ih h hrest fun he => hs (hb ▸ he.append w)
        exact ⟨w :: us, rfl, hb ▸ .closed hw hcut⟩
      | unclosed hu => exact absurd hu (hws _ List.mem_cons_self)

/-- Inert letters are calm. -/
theorem calm_inert (hs : ∀ c ∈ s, isInert c = true) (depth : Nat) :
    Calm depth (s.map ([·])) ∧ (s.map ([·])).foldl bracketsAfter depth = depth := by
  induction s with
  | nil => exact ⟨calm_nil depth, rfl⟩
  | cons c s ih =>
    obtain ⟨hc, hs⟩ := List.forall_mem_cons.mp hs
    obtain ⟨hhalts, hafter⟩ := idle_of_isInert hc depth
    rw [List.map_cons, calm_cons_iff, List.foldl_cons, hafter]
    exact ⟨⟨hhalts, (ih hs).1⟩, (ih hs).2⟩

end inert

/-! ### Self-contained texts -/

/-- All units of a text are complete, at none of them a declaration ends or a block opens, and its brackets
are closed again at its end. -/
def SelfContained (t : List α) : Prop :=
  ∃ us, CutsInto t us ∧ (∀ u ∈ us, ¬ Unclosed u) ∧ Calm 0 us ∧ us.foldl bracketsAfter 0 = 0

section selfContained

variable {s t m : List α} {c : α}

/-- **A declaration reads over a self-contained text**, to a semicolon behind it. -/
theorem SelfContained.rule_eq (h : SelfContained s) (hc : sign c = .semicolon) (rest : List α) :
    rule 0 (s ++ c :: rest) = s.length + 1 := by
  obtain ⟨us, hcut, hall, hcalm, hzero⟩ := h
  have hletter : CutsInto (c :: rest) ([c] :: units rest) :=
    .letter (by simp [hc, Sign.isQuote]) (by simp [hc]) (by simp [opensComment, hc]) (cutsInto_units rest)
  have hwhole : CutsInto (s ++ c :: rest) (us ++ [c] :: units rest) :=
    hcut.append hall (fun d _ => by simp [opensComment, hc]) hletter
  have hends : RuleEnds 0 (us ++ [c] :: units rest) (us.flatten.length + 1) :=
    .first hcalm (by simp [hzero, halts, isSign, hc]) (.semicolon (isSign_singleton hc))
  rw [← (ruleEnds_iff hwhole).mp hends, hcut.flatten_eq]

/-- **What a declaration reads over is self-contained**: it ends behind a semicolon only if that is a unit
outside brackets, and no block opens before it. -/
theorem selfContained_of_rule_eq {d : α} (hc : sign c = .semicolon) (hd : sign d ≠ .closeBrace)
    (h : rule 0 (s ++ [c, d]) = s.length + 1) : SelfContained s := by
  have hcut := cutsInto_units (s ++ [c, d])
  have hends := (ruleEnds_iff hcut).mpr h.symm
  generalize hn : s.length + 1 = n at hends
  generalize units (s ++ [c, d]) = us at hcut hends
  have hflat := hcut.flatten_eq
  cases hends with
  | never =>
    rw [hflat, List.length_append] at hn
    simp at hn
  | @first vs ws u n hcalm hu hend =>
    rw [List.flatten_append, List.flatten_cons] at hflat
    cases hend with
    | semicolon hsemi =>
      obtain ⟨rfl, -⟩ := List.append_inj hflat (by omega)
      obtain ⟨hleft, hall⟩ := hcut.left (List.cons_ne_nil u ws)
      refine ⟨vs, hleft, hall, hcalm, ?_⟩
      by_contra hne
      simp [halts, hne, isSign_eq_false hsemi] at hu
    | closeBrace hclose =>
      obtain ⟨e, rfl, he⟩ := exists_of_isSign hclose
      rw [List.append_cons s c [d]] at hflat
      have hlen : vs.flatten.length = (s ++ [c]).length := by
        rw [List.length_append, List.length_singleton]
        omega
      obtain ⟨-, hlast⟩ := List.append_inj hflat hlen
      obtain ⟨rfl, -⟩ := List.cons.inj hlast
      exact absurd he hd
    | @openBrace n hopen hblock =>
      obtain ⟨o, rfl, -⟩ := exists_of_isSign hopen
      cases hblock with
      | never =>
        have hlen := congrArg List.length hflat
        simp only [List.length_append, List.length_cons, List.length_nil] at hlen
        omega
      | @balanced vs' ws' u' hpending hcount hclose =>
        -- the brace that closes the block stands where the semicolon is
        obtain ⟨e, rfl, he⟩ := exists_of_isSign hclose
        have hflat' : (vs.flatten ++ [o] ++ vs'.flatten) ++ e :: ws'.flatten = s ++ [c, d] := by
          rw [← hflat]
          simp
        have hlen : (vs.flatten ++ [o] ++ vs'.flatten).length = s.length := by
          rw [List.length_append, List.length_append, List.length_singleton]
          omega
        obtain ⟨-, hlast⟩ := List.append_inj hflat' hlen
        obtain ⟨rfl, -⟩ := List.cons.inj hlast
        rw [hc] at he
        cases he

/-- Inert letters around a text do not matter. -/
theorem selfContained_between_iff (hs : ∀ c ∈ s, isInert c = true) (ht : ∀ c ∈ t, isInert c = true)
    (hm : EndsIn (· = .closeRound) m) : SelfContained (s ++ (m ++ t)) ↔ SelfContained m := by
  obtain ⟨w, e, rfl, he⟩ := hm
  constructor
  · rintro ⟨ws, hcut, hall, hcalm, hzero⟩
    obtain ⟨ws, rfl, hinner⟩ := (cutsInto_inert_append hs).mp hcut
    have hbackslash : ¬ EndsIn (· = .backslash) (w ++ [e]) := by
      rintro ⟨w', e', hw, he'⟩
      obtain ⟨-, rfl⟩ := List.append_singleton_inj.mp hw
      rw [he] at he'
      cases he'
    obtain ⟨us, rfl, hmiddle⟩ :=
      hinner.of_append_inert (fun w hw => hall w (List.mem_append_right _ hw)) hbackslash ht
    rw [calm_append_iff, calm_append_iff, (calm_inert hs 0).2] at hcalm
    rw [List.foldl_append, List.foldl_append, (calm_inert hs 0).2, (calm_inert ht _).2] at hzero
    exact ⟨us, hmiddle, fun u hu => hall u (by simp [hu]), hcalm.2.1, hzero⟩
  · rintro ⟨us, hcut, hall, hcalm, hzero⟩
    have hletters : ∀ {s : List α}, (∀ c ∈ s, isInert c = true) → ∀ u ∈ s.map ([·]), ¬ Unclosed u := by
      intro s hs u hu
      obtain ⟨c, hc, rfl⟩ := List.mem_map.mp hu
      rcases isInert_iff.mp (hs c hc) with h | h | h <;>
        exact not_unclosed_letter (by simp [h, Sign.isQuote]) (by simp [h])
    have hbehind : CutsInto t (t.map ([·])) := by
      have h := (cutsInto_inert_append (t := []) ht).mpr ⟨[], rfl, .nil⟩
      rwa [List.append_nil, List.append_nil] at h
    refine ⟨s.map ([·]) ++ (us ++ t.map ([·])), ?_, ?_, ?_, ?_⟩
    · refine (cutsInto_inert_append hs).mpr ⟨_, rfl, hcut.append hall ?_ hbehind⟩
      intro d hd
      rw [List.getLast?_concat, Option.some_inj] at hd
      simp [opensComment, ← hd, he]
    · intro u hu
      rcases List.mem_append.mp hu with hu | hu
      · exact hletters hs u hu
      rcases List.mem_append.mp hu with hu | hu
      · exact hall u hu
      · exact hletters ht u hu
    · rw [calm_append_iff, calm_append_iff, (calm_inert hs 0).2, hzero]
      exact ⟨(calm_inert hs 0).1, hcalm, (calm_inert ht 0).1⟩
    · rw [List.foldl_append, List.foldl_append, (calm_inert hs 0).2, hzero, (calm_inert ht 0).2]

end selfContained

/-! ### Ordinary urls -/

/-- Whether a unit is a comment. -/
def isComment : List α → Bool
  | c :: cs => opensComment c cs
  | [] => false

/-- Whether a unit is no comment, no opening brace and no square bracket. -/
def isOrdinary (u : List α) : Bool :=
  !isComment u && !isSign .openBrace u && !isSign .openSquare u && !isSign .closeSquare u

section urls

variable {us : List (List α)}

/-- The last unit of what a url has behind its opening bracket is the first one that is a closing bracket,
if no unit is a comment. -/
theorem exists_units_of_url {v : List α} (hv : v ≠ []) : ∀ {b : List α} {us : List (List α)},
    url (b ++ v) = b.length → CutsInto b us → (∀ u ∈ us, isComment u = false) →
      ∃ vs d, us = vs ++ [[d]] ∧ sign d = .closeRound ∧ ∀ u ∈ vs, isSign .closeRound u = false
  | [], _, h, _, _ => by
    obtain ⟨c, v, rfl⟩ := List.exists_cons_of_ne_nil hv
    exact absurd h (Nat.ne_of_gt (url_pos c v))
  | c :: b, us, h, hcut, hus => by
    obtain ⟨us, rfl, hrest⟩ := cutsInto_cons_iff.mp hcut
    obtain ⟨hcomment, hus⟩ := List.forall_mem_cons.mp hus
    rw [List.cons_append, url] at h
    by_cases hc : sign c = .closeRound
    · rw [if_pos hc, List.length_cons] at h
      obtain rfl : b = [] := List.length_eq_zero_iff.mp (by omega)
      rw [List.drop_nil, cutsInto_nil_iff] at hrest
      exact ⟨[], c, by simp [hrest], hc, fun u hu => absurd hu List.not_mem_nil⟩
    -- one unit is skipped, and the url ends in what follows it
    suffices hlater : url (b.drop (unit c b) ++ v) = (b.drop (unit c b)).length by
      obtain ⟨vs, d, rfl, hd, hvs⟩ := exists_units_of_url hv hlater hrest hus
      exact ⟨_ :: vs, d, rfl, hd, List.forall_mem_cons.mpr ⟨isSign_of_ne hc _, hvs⟩⟩
    rw [if_neg hc] at h
    by_cases hq : (sign c).isQuote = true
    · rw [if_pos hq, List.length_cons, Nat.add_right_cancel_iff] at h
      obtain ⟨b₁, b₂, rfl, hstring, hlater⟩ := exists_seq h
      have hne : b₂ ++ v ≠ [] := List.append_ne_nil_of_right_ne_nil _ hv
      rwa [unit_string hq, string_congr hne b₂ hstring, List.drop_left]
    rw [if_neg hq] at h
    by_cases hb : sign c = .backslash
    · rw [if_pos hb] at h
      cases b with
      | nil =>
        obtain ⟨d, v, rfl⟩ := List.exists_cons_of_ne_nil hv
        simp at h
      | cons d b =>
        simp only [List.cons_append, List.length_cons, List.drop_succ_cons, List.drop_zero] at h
        have hone : unit c (d :: b) = 1 := by simp [unit_escape hb]
        rw [hone, List.drop_succ_cons, List.drop_zero]
        omega
    · rw [if_neg hb, List.length_cons, Nat.add_right_cancel_iff] at h
      have hopens : opensComment c b = false := by
        rcases ho : opensComment c b with _ | _
        · rfl
        · cases b with
          | nil => simp [opensComment] at ho
          | cons d b =>
            obtain ⟨hslash, hstar⟩ : sign c = .slash ∧ sign d = .star := by simpa [opensComment] using ho
            rw [unit_comment hslash hstar, List.take_succ_cons] at hcomment
            exact absurd ho (by simpa [isComment, opensComment] using hcomment)
      rwa [unit_letter (by simpa using hq) hb hopens, List.drop_zero]
termination_by b => b.length
decreasing_by exact length_drop_lt c b _

/-- Ordinary units within brackets are calm. -/
theorem calm_ordinary {depth : Nat} (hdepth : depth ≠ 0) (h : ∀ u ∈ us, isOrdinary u = true)
    (hopen : ∀ u ∈ us, isSign .openRound u = false) (hclose : ∀ u ∈ us, isSign .closeRound u = false) :
    Calm depth us ∧ us.foldl bracketsAfter depth = depth := by
  induction us with
  | nil => exact ⟨calm_nil depth, rfl⟩
  | cons u us ih =>
    obtain ⟨hu, h⟩ := List.forall_mem_cons.mp h
    obtain ⟨hopen', hopen⟩ := List.forall_mem_cons.mp hopen
    obtain ⟨hclose', hclose⟩ := List.forall_mem_cons.mp hclose
    simp only [isOrdinary, Bool.and_eq_true, Bool.not_eq_true'] at hu
    have hafter : bracketsAfter depth u = depth := by simp [bracketsAfter, hu, hopen', hclose']
    rw [calm_cons_iff, List.foldl_cons, hafter]
    exact ⟨⟨by simp [halts, hu, hdepth], (ih h hopen hclose).1⟩, (ih h hopen hclose).2⟩

/-- **An ordinary url is self-contained.** -/
theorem selfContained_url {w b v : List α} {o : α} (hw : ∀ c ∈ w, isInert c = true)
    (ho : sign o = .openRound) (hv : v ≠ []) (h : url (b ++ v) = b.length)
    (hone : (units (w ++ o :: b)).countP (isSign .openRound) = 1)
    (hall : ∀ u ∈ units (w ++ o :: b), isOrdinary u = true) : SelfContained (w ++ o :: b) := by
  have hcut := cutsInto_units (w ++ o :: b)
  generalize units (w ++ o :: b) = us at hcut hone hall
  obtain ⟨us, rfl, hbracket⟩ := (cutsInto_inert_append hw).mp hcut
  rw [cutsInto_cons_iff, unit_eq_zero (by simp [ho, Sign.isQuote]) (by simp [ho]) (by simp [ho]),
    List.take_zero, List.drop_zero] at hbracket
  obtain ⟨us, rfl, hbody⟩ := hbracket
  obtain ⟨vs, d, rfl, hd, hclose⟩ := exists_units_of_url hv h hbody fun u hu => by
    have hu := hall u (by simp [hu])
    simp only [isOrdinary, Bool.and_eq_true, Bool.not_eq_true'] at hu
    exact hu.1.1.1
  have hopen : ∀ u ∈ vs, isSign .openRound u = false := by
    rw [List.countP_append, List.countP_cons, List.countP_append, if_pos (isSign_singleton ho)] at hone
    have hzero : vs.countP (isSign .openRound) = 0 := by omega
    simpa using List.countP_eq_zero.mp hzero
  obtain ⟨hcalm, hafter⟩ :=
    calm_ordinary Nat.one_ne_zero (fun u hu => hall u (by simp [hu])) hopen hclose
  obtain ⟨hbefore, hinert⟩ := calm_inert hw 0
  have hdeeper : bracketsAfter 0 [o] = 1 := by simp [bracketsAfter, isSign, ho]
  refine ⟨_, hcut, ?_, ?_, ?_⟩
  · rw [← List.cons_append, ← List.append_assoc] at hcut ⊢
    exact hcut.not_unclosed (by simp [hd, Sign.isQuote]) (by simp [hd])
  · rw [calm_append_iff, hinert, calm_cons_iff, hdeeper, calm_append_iff, hafter, calm_cons_iff]
    exact ⟨hbefore, by simp [halts, isSign, ho], hcalm, by simp [halts, isSign, hd], calm_nil _⟩
  · rw [List.foldl_append, hinert, List.foldl_cons, hdeeper, List.foldl_append, hafter]
    simp [bracketsAfter, isSign, hd]

end urls

end Extent

/-! ### Kept stretches of their own -/

namespace Piece

/-- A text is a kept stretch of its own, and what follows it is read as if it came first. -/
def StandsAlone (kind : SpanKind) (t : Text) : Prop :=
  ∀ rest, pieces (t ++ rest) = .kept kind t :: pieces rest

/-- A stretch that stands alone is kept whatever follows. -/
theorem StandsAlone.keptAt {kind : SpanKind} {t : Text} (h : StandsAlone kind t) :
    ∃ c u, t = c :: u ∧ ∀ rest, keptAt false c (u ++ rest) = some (kind, u.length) := by
  obtain ⟨c, u, rfl⟩ : ∃ c u, t = c :: u := by
    have hsound : Sound (pieces (t ++ [])) := sound_cut false _
    rw [h] at hsound
    exact List.exists_cons_of_ne_nil (hsound.text_ne_nil _ List.mem_cons_self)
  refine ⟨c, u, rfl, fun rest => ?_⟩
  have hreads : Reads false (pieces (c :: u ++ rest)) := reads_cut false _
  rw [h] at hreads
  cases hreads with
  | kept hkept _ => rwa [source_pieces] at hkept

/-- A kept stretch that ends before a letter ends there whatever follows. -/
theorem standsAlone_of_keptAt {kind : SpanKind} {c : Char} {u : Text}
    (h : keptAt false c (u ++ ['a']) = some (kind, u.length)) (hjoined : endsJoined (c :: u) = false) :
    StandsAlone kind (c :: u) := by
  intro rest
  have hkept : keptAt false c (u ++ rest) = some (kind, u.length) :=
    keptAt_congr (List.cons_ne_nil 'a' []) (fun hclosed => absurd hclosed (by decide))
      (fun htarget => absurd htarget (by decide +kernel)) h
  rw [pieces, List.cons_append, cut_kept hkept, hjoined]
  rfl

/-- A url with its end begins with four letters, of which the last is its opening bracket. -/
theorem StandsAlone.url {t : Text} (h : StandsAlone .url t) :
    ∃ w b, t = w ++ '(' :: b ∧ (∀ c ∈ w, Extent.isInert c = true) ∧
      ∀ rest, Extent.url (b ++ rest) = b.length := by
  obtain ⟨c, u, rfl, hkept⟩ := h.keptAt
  have hcases : ∀ rest, opensUrl false (c :: (u ++ rest)) = true ∧
      u.length = Extent.url ((u ++ rest).drop 3) + 3 := by
    intro rest
    rcases keptAt_cases (hkept rest) with ⟨-, -, hne, -⟩ | ⟨-, -, -, hne, -⟩ | ⟨-, hne, -⟩ |
      ⟨hurl, -, hlen⟩ | ⟨-, hne, -⟩ | ⟨-, hne, -⟩
    case inr.inr.inr.inl => exact ⟨hurl, hlen⟩
    all_goals cases hne
  obtain ⟨x, y, z, b, rfl⟩ : ∃ x y z b, u = x :: y :: z :: b := by
    match u, (hcases []).2 with
    | x :: y :: z :: b, _ => exact ⟨x, y, z, b, rfl⟩
  have hword : (c.toLower = 'u' ∧ x.toLower = 'r' ∧ y.toLower = 'l') ∧ z.toLower = '(' := by
    have hopens := (hcases []).1
    simpa [opensUrl, beginsWith, lower, and_assoc] using hopens
  obtain rfl : z = '(' := eq_of_toLower_eq (by decide) hword.2
  refine ⟨[c, x, y], b, rfl, ?_, fun rest => ?_⟩
  · have hinert : ∀ {d e : Char}, isIdent e = true → d.toLower = e → Extent.isInert d = true := by
      intro d e he hd
      exact Extent.isInert_iff.mpr (.inl (sign_of_isIdent (isIdent_of_toLower (hd ▸ he))))
    intro d hd
    simp only [List.mem_cons, List.not_mem_nil, or_false] at hd
    rcases hd with rfl | rfl | rfl
    · exact hinert (by decide) hword.1.1
    · exact hinert (by decide) hword.1.2.1
    · exact hinert (by decide) hword.1.2.2
  · have hlen := (hcases rest).2
    simp only [List.length_cons, List.cons_append, List.drop_succ_cons, List.drop_zero] at hlen
    omega

/-- A url that stands alone ends in its bracket. -/
theorem StandsAlone.endsIn_closeRound {t : Text} (h : StandsAlone .url t) :
    Extent.EndsIn (· = .closeRound) t := by
  obtain ⟨w, b, rfl, -, hurl⟩ := h.url
  exact ((Extent.endsIn_of_url (List.cons_ne_nil ' ' []) (hurl _)).cons '(').append w

/-! ### Urls in guarded declarations -/

/-- A no-flip comment with its end. -/
structure IsNoFlipComment (comment : Text) : Prop where
  closed : Extent.Closed comment
  opens : comment.take 2 = ['/', '*']
  isNoFlip : isNoFlip comment = true

variable {comment declaration : Text}

/-- A no-flip comment is a comment with an end. -/
theorem IsNoFlipComment.exists_eq (h : IsNoFlipComment comment) :
    ∃ u, comment = '/' :: '*' :: u ∧ ∀ rest, Extent.comment (u ++ rest) = u.length := by
  match comment, h with
  | c :: d :: u, h =>
    obtain ⟨rfl, rfl⟩ : c = '/' ∧ d = '*' := by simpa using h.opens
    refine ⟨u, rfl, fun rest => ?_⟩
    have hunit := Extent.unit_of_closed h.closed rest
    rw [List.cons_append, Extent.unit_comment rfl rfl, List.length_cons, Nat.add_right_cancel_iff] at hunit
    exact hunit
  | [c], h => simpa using h.opens
  | [], h => simpa using h.opens

/-- **A no-flip comment and a declaration are one stretch** exactly if the declaration is self-contained up to
its semicolon. -/
theorem standsAlone_noFlip_iff (h : IsNoFlipComment comment)
    (htrivia : ∀ rest, Extent.trivia (declaration ++ ';' :: rest) = 0) :
    StandsAlone .noFlip (comment ++ (declaration ++ [';'])) ↔ Extent.SelfContained declaration := by
  obtain ⟨u, rfl, hu⟩ := h.exists_eq
  constructor
  · intro halone
    obtain ⟨c, v, hv, hkept⟩ := halone.keptAt
    rw [List.cons_append, List.cons_append] at hv
    obtain ⟨rfl, rfl⟩ := List.cons.inj hv
    have hfollowed := hkept ['a']
    have happend : '*' :: (u ++ (declaration ++ [';'])) ++ ['a']
        = '*' :: (u ++ (declaration ++ [';', 'a'])) := by simp
    rw [happend, keptAt_noFlip_cons rfl (hu _) h.isNoFlip, Option.some_inj, Prod.mk.injEq] at hfollowed
    have htarget : Extent.target (declaration ++ [';', 'a']) = declaration.length + 1 := by
      have hlen := hfollowed.2
      simp only [List.length_cons, List.length_append, List.length_nil] at hlen
      omega
    rw [Extent.target_eq (by omega), htrivia, Nat.zero_add, List.drop_zero] at htarget
    exact Extent.selfContained_of_rule_eq rfl (by decide) htarget
  · intro hcontained rest
    have hguarded : Guarded ('/' :: '*' :: u) [] (declaration ++ [';']) :=
      { opens := ⟨u, rfl, hu⟩
        isNoFlip := h.isNoFlip
        trivia := htrivia []
        ends := fun rest => by
          rw [List.append_assoc, List.singleton_append, hcontained.rule_eq rfl, List.length_append]
          rfl
        last := by simp }
    have hreads := hguarded.reads (reads_cut false rest) false
    have hcut := cut_of_reads hreads
    rw [source_kept, source_cut] at hcut
    exact hcut

/-- **What a no-flip comment guards, where the declaration has a url.** The declaration is guarded up to its
semicolon, whatever follows, exactly if its url is self-contained; and an ordinary url is. -/
theorem standsAlone_noFlip_url {comment before url after : Text} (hcomment : IsNoFlipComment comment)
    (hletter : before.head?.any Char.isAlpha = true) (hbefore : ∀ c ∈ before, Extent.isInert c = true)
    (hafter : ∀ c ∈ after, Extent.isInert c = true) (hurl : StandsAlone .url url) :
    (StandsAlone .noFlip (comment ++ (before ++ (url ++ after) ++ [';'])) ↔ Extent.SelfContained url) ∧
      ((Extent.units url).countP (Extent.isSign .openRound) = 1 →
        (∀ u ∈ Extent.units url, Extent.isOrdinary u = true) → Extent.SelfContained url) := by
  constructor
  · have htrivia : ∀ rest, Extent.trivia (before ++ (url ++ after) ++ ';' :: rest) = 0 := by
      intro rest
      match before, hletter with
      | c :: before, hletter =>
        have hc : sign c = .other := sign_of_isIdent (isIdent_of_isAlpha (by simpa using hletter))
        exact Extent.trivia_stop (by simp [hc]) (opensComment_of_sign (by simp [hc]) _)
    rw [standsAlone_noFlip_iff hcomment htrivia,
      Extent.selfContained_between_iff hbefore hafter hurl.endsIn_closeRound]
  · intro hone hall
    obtain ⟨w, b, rfl, hw, hb⟩ := hurl.url
    exact Extent.selfContained_url hw rfl (List.cons_ne_nil ' ' []) (hb _) hone hall

/-- In `url("a/*b{")` the comment and the brace stand in a string. -/
theorem standsAlone_noFlip_url_quoted :
    let url := "url(\"a/*b\x7b\")".toList
    StandsAlone .url url ∧
      StandsAlone .noFlip
        ("/*noflip*/".toList ++ ("background: ".toList ++ (url ++ " left".toList) ++ [';'])) := by
  intro url
  have hcomment : IsNoFlipComment "/*noflip*/".toList :=
    { closed := by decide +kernel
      opens := rfl
      isNoFlip := by decide }
  have hurl : StandsAlone .url url :=
    standsAlone_of_keptAt (u := "rl(\"a/*b\x7b\")".toList) (by decide +kernel) (by decide)
  have hbefore : ∀ c ∈ "background: ".toList, Extent.isInert c = true :=
    List.all_eq_true.mp (by decide)
  have hafter : ∀ c ∈ " left".toList, Extent.isInert c = true := List.all_eq_true.mp (by decide)
  have hresult := standsAlone_noFlip_url hcomment (by decide) hbefore hafter hurl
  exact ⟨hurl, hresult.1.mpr (hresult.2 (by decide +kernel) (by decide +kernel))⟩

/-- In `url(a/*b)` the slash and the star open no comment for the scanner of urls, but for the scanner of
declarations they do, and the no-flip comment guards all that follows. -/
theorem noFlip_passes_url :
    StandsAlone .url "url(a/*b)".toList ∧
      pieces "/*noflip*/background: url(a/*b);left:0".toList
        = [.kept .noFlip "/*noflip*/background: url(a/*b);left:0".toList] :=
  ⟨standsAlone_of_keptAt (u := "rl(a/*b)".toList) (by decide +kernel) (by decide), by decide +kernel⟩

end Piece

end BidiSheet
