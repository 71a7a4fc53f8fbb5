import BidiSheet.Proofs.Piece
import BidiSheet.Segment

/-!
# Pieces that are read from their own text

A list of pieces *reads* when cutting its text gives the same pieces again (`Piece.cut_of_reads`), as it
does for what was cut from a source (`Piece.reads_cut`). What the scanner looks for behind a kept stretch
can be seen in the pieces that follow: whether a closing brace comes next
(`Piece.Reads.startsClosed_iff`), and whether nothing more comes in the block
(`Piece.Reads.target_eq_zero_iff`). So a list of pieces reads if its end reads and is enough like the end
of a list that does.

* `Piece.Reads.append`: pieces that read and end in a delimiter and blanks can be followed by any others.
-/

namespace BidiSheet

open HasSign (sign)
open Marker (opener closer isControl)

/-! ### Signs of single characters -/

/-- Which characters have a sign is checked on the few that have one. -/
theorem sign_eq_iff {s : Sign} {p : Char → Bool} (hs : s ≠ .other)
    (hp : ∀ c, p c = true → c ∈ signed)
    (h : signed.all (fun c => decide (sign c = s) == p c) = true) {c : Char} :
    sign c = s ↔ p c = true := by
  have hmem : c ∈ signed → (sign c = s ↔ p c = true) := by
    intro hc
    have heq := List.all_eq_true.mp h c hc
    rw [beq_iff_eq] at heq
    rw [← heq, decide_eq_true_eq]
  rcases sign_eq_other_or_mem c with hother | hc
  · constructor
    · rintro rfl
      exact absurd hother hs
    · intro hc
      exact (hmem (hp c hc)).mpr hc
  · exact hmem hc

/-- A sign that one character alone has. -/
theorem sign_eq_iff_eq {s : Sign} {d : Char} (hs : s ≠ .other) (hd : d ∈ signed)
    (h : signed.all (fun c => decide (sign c = s) == decide (c = d)) = true) {c : Char} :
    sign c = s ↔ c = d := by
  rw [sign_eq_iff hs (fun c hc => by rwa [of_decide_eq_true hc]) h, decide_eq_true_eq]

/-- The slash alone has its sign. -/
theorem sign_eq_slash_iff {c : Char} : sign c = .slash ↔ c = '/' :=
  sign_eq_iff_eq (by decide) (by decide) (by decide)

/-- The star alone has its sign. -/
theorem sign_eq_star_iff {c : Char} : sign c = .star ↔ c = '*' :=
  sign_eq_iff_eq (by decide) (by decide) (by decide)

/-- The closing brace alone has its sign. -/
theorem sign_eq_closeBrace_iff {c : Char} : sign c = .closeBrace ↔ c = '\x7d' :=
  sign_eq_iff_eq (by decide) (by decide) (by decide)

/-- The blanks have a sign in common. -/
theorem sign_eq_blank_iff {c : Char} : sign c = .blank ↔ isBlank c = true := by
  refine sign_eq_iff (by decide) ?_ (by decide)
  intro c hc
  simp only [isBlank, Bool.or_eq_true, decide_eq_true_eq] at hc
  rcases hc with (((rfl | rfl) | rfl) | rfl) | rfl <;> decide

/-- A scanner does not react to control characters. -/
theorem sign_of_isControl {c : Char} (h : isControl c = true) : sign c = .other := by
  have hc : c = opener ∨ c = closer := by simpa [isControl] using h
  rcases hc with rfl | rfl <;> decide

namespace Piece

/-! ### The text of pieces -/

/-- The text of a list of pieces. -/
def source (ps : List Piece) : Text := ps.flatMap text

@[simp] theorem source_nil : source [] = [] := rfl

/-- A plain piece is one character of the text. -/
@[simp] theorem source_plain (c : Char) (ps : List Piece) :
    source (.plain c :: ps) = c :: source ps := rfl

/-- A kept piece is a stretch of the text. -/
@[simp] theorem source_kept (kind : SpanKind) (t : Text) (ps : List Piece) :
    source (.kept kind t :: ps) = t ++ source ps := rfl

/-- The texts of pieces follow one another. -/
@[simp] theorem source_append (ps qs : List Piece) : source (ps ++ qs) = source ps ++ source qs :=
  List.flatMap_append

/-- What a text is cut into has that text. -/
theorem source_cut (joined : Bool) (t : Text) : source (cut joined t) = t := text_cut joined t

/-- The pieces of a source have its text. -/
theorem source_pieces (t : Text) : source (pieces t) = t := text_pieces t

/-! ### Reading -/

/-- The pieces are those that their own text is cut into, if `joined` says whether an identifier reaches
up to it. -/
inductive Reads : Bool → List Piece → Prop where
  /-- Nothing is left. -/
  | nil {joined : Bool} : Reads joined []
  /-- A stretch is kept. -/
  | kept {joined : Bool} {kind : SpanKind} {c : Char} {u : Text} {ps : List Piece}
      (h : keptAt joined c (u ++ source ps) = some (kind, u.length))
      (rest : Reads (endsJoined (c :: u)) ps) : Reads joined (.kept kind (c :: u) :: ps)
  /-- A character is plain. -/
  | plain {joined : Bool} {c : Char} {ps : List Piece} (hc : c ≠ '\\')
      (h : keptAt joined c (source ps) = none) (rest : Reads (isIdent c) ps) :
      Reads joined (.plain c :: ps)
  /-- A backslash has nothing to escape. -/
  | stray {joined : Bool} : Reads joined [.plain '\\']
  /-- A backslash makes the next character plain. -/
  | escape {joined : Bool} {d : Char} {ps : List Piece} (h : isControl d = false)
      (rest : Reads (isIdent d) ps) : Reads joined (.plain '\\' :: .plain d :: ps)
  /-- A backslash does not make a control character plain. -/
  | control {joined : Bool} {d : Char} {ps : List Piece} (h : isControl d = true)
      (rest : Reads false (.kept .control [d] :: ps)) :
      Reads joined (.plain '\\' :: .kept .control [d] :: ps)

/-- Nothing is kept that begins with a character of no meaning. -/
theorem keptAt_of_not_isIdent (joined : Bool) {c : Char} {cs : Text} (hident : isIdent c = false)
    (hat : c ≠ '@') (hquote : (sign c).isQuote = false) (hcontrol : isControl c = false)
    (hcomment : Extent.opensComment c cs = false) : keptAt joined c cs = none := by
  refine keptAt_eq_none_iff.mpr ⟨hcomment, hquote, ?_, ?_, hcontrol⟩
  · rcases hu : opensUrl joined (c :: cs) with _ | _
    · rfl
    · rw [isIdent_of_opensUrl hu] at hident
      cases hident
  · rcases hf : opensFontFace (c :: cs) with _ | _
    · rfl
    · exact absurd (of_opensFontFace hf).1 hat

/-- A backslash keeps nothing. -/
theorem keptAt_backslash (joined : Bool) (cs : Text) : keptAt joined '\\' cs = none :=
  keptAt_of_not_isIdent joined (by decide) (by decide) (by decide) (by decide)
    (opensComment_of_sign (by decide) cs)

/-- A closing brace keeps nothing. -/
theorem keptAt_closeBrace (joined : Bool) (cs : Text) : keptAt joined '\x7d' cs = none :=
  keptAt_of_not_isIdent joined (by decide) (by decide) (by decide) (by decide)
    (opensComment_of_sign (by decide) cs)

/-- Whether nothing begins with this character, and nothing goes on up to it but what may go on behind it. -/
def isPause (c : Char) : Bool :=
  !isIdent c && c ≠ '@' && c ≠ '\\' && !(sign c).isQuote && !isControl c && sign c ≠ .slash

/-- A blank is a pause. -/
theorem isPause_of_isBlank {c : Char} (h : isBlank c = true) : isPause c = true := of_isBlank (by decide) h

/-- A delimiter is a pause. -/
theorem isPause_of_isDelimiter {c : Char} (h : isDelimiter c = true) : isPause c = true := by
  have hc : (c = openBrace ∨ c = closeBrace) ∨ c = ';' := by simpa [isDelimiter] using h
  rcases hc with (rfl | rfl) | rfl <;> decide

/-- A pause belongs to no identifier. -/
theorem not_isIdent_of_isPause {c : Char} (h : isPause c = true) : isIdent c = false := by
  simp only [isPause, Bool.and_eq_true, Bool.not_eq_true'] at h
  exact h.1.1.1.1.1

/-- A character with which nothing begins is plain. -/
theorem Reads.pause {joined : Bool} {c : Char} {ps : List Piece} (hc : isPause c = true)
    (h : Reads false ps) : Reads joined (.plain c :: ps) := by
  have hident := not_isIdent_of_isPause hc
  simp only [isPause, Bool.and_eq_true, Bool.not_eq_true', decide_eq_true_eq, and_assoc] at hc
  obtain ⟨-, hat, hbackslash, hquote, hcontrol, hslash⟩ := hc
  refine .plain hbackslash ?_ (hident ▸ h)
  exact keptAt_of_not_isIdent joined hident hat hquote hcontrol (opensComment_of_sign hslash _)

section

variable {joined : Bool}

/-- A stretch that is kept is the first piece. -/
theorem cut_kept {kind : SpanKind} {c : Char} {u t : Text}
    (h : keptAt joined c (u ++ t) = some (kind, u.length)) :
    cut joined (c :: (u ++ t)) = .kept kind (c :: u) :: cut (endsJoined (c :: u)) t := by
  rw [cut.eq_def]
  simp only [h, List.take_left, List.drop_left]

/-- A character at which nothing is kept is a piece of its own. -/
theorem cut_plain {c : Char} {t : Text} (hc : c ≠ '\\') (h : keptAt joined c t = none) :
    cut joined (c :: t) = .plain c :: cut (isIdent c) t := by
  rw [cut.eq_def]
  simp only [h, if_neg hc]

/-- A backslash at the end is plain. -/
theorem cut_stray : cut joined ['\\'] = [.plain '\\'] := by
  rw [cut.eq_def]
  simp only [keptAt_backslash, if_pos]

/-- A backslash and the character behind it are plain. -/
theorem cut_escape {d : Char} (hd : isControl d = false) (t : Text) :
    cut joined ('\\' :: d :: t) = .plain '\\' :: .plain d :: cut (isIdent d) t := by
  rw [cut.eq_def]
  simp [keptAt_backslash, hd]

/-- A backslash does not make a control character plain. -/
theorem cut_control {d : Char} (hd : isControl d = true) (t : Text) :
    cut joined ('\\' :: d :: t) = .plain '\\' :: cut false (d :: t) := by
  rw [cut.eq_def]
  simp [keptAt_backslash, hd]

end

/-- What a source is cut into reads. -/
theorem reads_cut (joined : Bool) (t : Text) : Reads joined (cut joined t) := by
  fun_induction cut joined t with
  | case1 => exact .nil
  | case2 joined c cs kind n h ih =>
    refine .kept ?_ ih
    have hn : n ≤ cs.length := keptAt_le h
    rwa [source_cut, List.take_append_drop, List.length_take_of_le hn]
  | case3 joined h => exact .stray
  | case4 joined d ds hd h ih =>
    -- the control character is kept on its own
    have hcut : cut false (d :: ds) = .kept .control [d] :: cut (endsJoined [d]) ds :=
      cut_kept (u := []) (keptAt_control hd ds)
    rw [hcut] at ih ⊢
    exact .control hd ih
  | case5 joined d ds hd h ih => exact .escape (by simpa using hd) ih
  | case6 joined c cs h hc ih =>
    refine .plain hc ?_ ih
    rwa [source_cut]

/-- **Pieces that read are what their text is cut into.** -/
theorem cut_of_reads {joined : Bool} {ps : List Piece} (h : Reads joined ps) :
    cut joined (source ps) = ps := by
  induction h with
  | nil => rw [source_nil, cut]
  | kept h rest ih => rw [source_kept, List.cons_append, cut_kept h, ih]
  | plain hc h rest ih => rw [source_plain, cut_plain hc h, ih]
  | stray => rw [source_plain, source_nil, cut_stray]
  | escape h rest ih => rw [source_plain, source_plain, cut_escape h, ih]
  | control h rest ih =>
    rw [source_plain, source_kept, List.singleton_append, cut_control h]
    rw [source_kept, List.singleton_append] at ih
    rw [ih]

/-! ### What stands behind -/

/-- Whether a comment has nothing behind it. -/
def isBare (comment : Text) : Bool := Extent.comment (comment.drop 2) + 2 = comment.length

/-- Whether nothing but blanks and comments comes in the block. -/
def isIdle : List Piece → Bool
  | [] => true
  | .plain c :: ps => c = '\x7d' || (isBlank c && isIdle ps)
  | .kept .comment _ :: ps => isIdle ps
  | .kept .noFlip t :: ps => isBare t && isIdle ps
  | .kept _ _ :: _ => false

/-- A blank before it does not decide whether something is guarded. -/
theorem target_blank {c : Char} (h : sign c = .blank) (cs : Text) :
    Extent.target (c :: cs) = 0 ↔ Extent.target cs = 0 := by
  rw [Extent.target_eq_zero_iff, Extent.target_eq_zero_iff, Extent.trivia_blank h,
    List.drop_succ_cons]

/-- A comment before it does not decide whether something is guarded. -/
theorem target_comment {c : Char} {cs : Text} (h : Extent.opensComment c cs = true) :
    Extent.target (c :: cs) = 0 ↔ Extent.target (cs.drop (Extent.comment cs.tail + 1)) = 0 := by
  rw [Extent.target_eq_zero_iff, Extent.target_eq_zero_iff, Extent.trivia_comment h,
    List.drop_succ_cons, List.drop_drop]

/-- Where neither a blank nor a comment comes, only a closing brace leaves nothing to guard. -/
theorem target_stop {c : Char} {cs : Text} (hb : sign c ≠ .blank)
    (hc : Extent.opensComment c cs = false) :
    Extent.target (c :: cs) = 0 ↔ sign c = .closeBrace := by
  rw [Extent.target_eq_zero_iff, Extent.trivia_stop hb hc, List.drop_zero]
  simp [Extent.startsClosed]

/-- A no-flip comment that guards something has something behind it. -/
theorem isBare_iff {d c : Char} {u₁ u₂ v : Text}
    (h : Extent.comment (u₁ ++ (u₂ ++ v)) = u₁.length) :
    isBare (c :: d :: (u₁ ++ u₂)) = true ↔ u₂ = [] := by
  have hbare : isBare (c :: d :: (u₁ ++ u₂)) = true ↔
      Extent.comment (u₁ ++ u₂) = u₁.length + u₂.length := by
    simp [isBare]
  rw [hbare]
  have hcut : ∀ w, u₂ ++ v = [] ∨ Extent.comment (u₁ ++ w) = u₁.length := by
    intro w
    by_cases hv : u₂ ++ v = []
    · exact .inl hv
    · exact .inr (Extent.comment_congr hv w h)
  rcases hcut u₂ with hnil | hlen
  · obtain ⟨rfl, rfl⟩ := List.append_eq_nil_iff.mp hnil
    simpa using h
  · rw [hlen]
    constructor
    · intro hsum
      exact List.length_eq_zero_iff.mp (by omega)
    · rintro rfl
      rfl

/-- An escape is something to guard. -/
theorem target_backslash_iff (ps : List Piece) :
    Extent.target (source (.plain '\\' :: ps)) = 0 ↔ isIdle (.plain '\\' :: ps) = true := by
  rw [source_plain, target_stop (by decide) (opensComment_of_sign (by decide) _)]
  simp [isIdle, isBlank, show sign '\\' ≠ .closeBrace by decide]

/-- What begins with a quote, or a character of no meaning, is more than blanks and comments. -/
theorem target_ne_zero {c : Char} (h : (sign c).isQuote = true ∨ sign c = .other) (cs : Text) :
    Extent.target (c :: cs) ≠ 0 := by
  have hs : sign c = .doubleQuote ∨ sign c = .singleQuote ∨ sign c = .other := by
    simpa [Sign.isQuote, or_assoc] using h
  have hslash : sign c ≠ .slash := by rcases hs with hs | hs | hs <;> simp [hs]
  have hblank : sign c ≠ .blank := by rcases hs with hs | hs | hs <;> simp [hs]
  intro hzero
  rw [target_stop hblank (opensComment_of_sign hslash cs)] at hzero
  rw [hzero] at hs
  simp at hs

namespace Reads

variable {joined : Bool} {ps : List Piece}

/-- The text of pieces that read begins with a closing brace exactly if that brace is plain. -/
theorem startsClosed_iff (h : Reads joined ps) :
    Extent.startsClosed (source ps) = true ↔ ps.head? = some (.plain '\x7d') := by
  have hplain : ∀ c t, Extent.startsClosed (c :: t) = true ↔ c = '\x7d' := by
    intro c t
    rw [Extent.startsClosed, List.head?_cons, Option.any_some, decide_eq_true_eq,
      sign_eq_closeBrace_iff]
  cases h with
  | nil => simp [Extent.startsClosed]
  | @kept _ kind c u ps h rest =>
    rw [source_kept, List.cons_append, hplain]
    constructor
    · rintro rfl
      rw [keptAt_closeBrace] at h
      cases h
    · intro hhead
      cases hhead
  | plain => rw [source_plain, hplain, List.head?_cons]; simp
  | stray => rw [source_plain, hplain, List.head?_cons]; simp
  | escape => rw [source_plain, hplain, List.head?_cons]; simp
  | control => rw [source_plain, hplain, List.head?_cons]; simp

/-- **A no-flip comment guards nothing** if nothing but blanks and comments follows in the block. -/
theorem target_eq_zero_iff (h : Reads joined ps) :
    Extent.target (source ps) = 0 ↔ isIdle ps = true := by
  induction h with
  | nil =>
    rw [source_nil, Extent.target_eq_zero_iff]
    simp [isIdle]
  | @kept joined kind c u ps h rest ih =>
    rw [source_kept, List.cons_append]
    obtain ⟨hcomment, hn, rfl, -⟩ | ⟨m, hcomment, hm, rfl, -, hn⟩ | ⟨hquote, rfl, -⟩ |
      ⟨hurl, rfl, -⟩ | ⟨hface, rfl, -⟩ | ⟨hcontrol, rfl, -⟩ := keptAt_cases h
    case inl => rw [target_comment hcomment, ← hn, List.drop_left, ih, isIdle]
    case inr.inl =>
      obtain ⟨u₁, u₂, rfl, hl⟩ := Extent.exists_split (u := u) (n := m) (by omega)
      rw [List.append_assoc] at hcomment hm hn ⊢
      rw [target_comment hcomment, ← hm, ← hl, List.drop_left]
      rw [← hl, List.drop_left, List.length_append, Nat.add_left_cancel_iff] at hn
      cases u₁ with
      | nil =>
        rw [List.length_nil] at hl
        omega
      | cons d u₁ =>
        have hcut : Extent.comment (u₁ ++ (u₂ ++ source ps)) = u₁.length := by
          rw [List.length_cons] at hl
          rw [List.cons_append, List.tail_cons] at hm
          omega
        rw [isIdle, List.cons_append, Bool.and_eq_true, isBare_iff hcut, ← ih, ← hn,
          List.length_eq_zero_iff]
        constructor
        · rintro rfl
          exact ⟨rfl, hn.symm⟩
        · exact And.left
    case inr.inr.inl => simp [target_ne_zero (.inl hquote), isIdle]
    case inr.inr.inr.inl =>
      have hs : sign c = .other := sign_of_isIdent (isIdent_of_opensUrl hurl)
      simp [target_ne_zero (.inr hs), isIdle]
    case inr.inr.inr.inr.inl =>
      obtain ⟨rfl, -⟩ := of_opensFontFace hface
      simp [target_ne_zero (.inr (by decide : sign '@' = .other)), isIdle]
    case inr.inr.inr.inr.inr => simp [target_ne_zero (.inr (sign_of_isControl hcontrol)), isIdle]
  | @plain joined c ps hc h rest ih =>
    have hcomment : Extent.opensComment c (source ps) = false := (keptAt_eq_none_iff.mp h).1
    rw [source_plain, isIdle, Bool.or_eq_true, Bool.and_eq_true, decide_eq_true_eq]
    by_cases hb : sign c = .blank
    · rw [target_blank hb, ih, ← sign_eq_closeBrace_iff, ← sign_eq_blank_iff, hb]
      simp
    · rw [target_stop hb hcomment, ← sign_eq_closeBrace_iff, ← sign_eq_blank_iff]
      simp [hb]
  | stray => exact target_backslash_iff _
  | escape => exact target_backslash_iff _
  | control => exact target_backslash_iff _

/-! ### Pieces one after the other -/

/-- A kept stretch stays kept if what follows it is enough like what did. -/
theorem kept_congr {kind : SpanKind} {c : Char} {u : Text} {qs : List Piece}
    (h : keptAt joined c (u ++ source ps) = some (kind, u.length))
    (hps : Reads (endsJoined (c :: u)) ps) (hqs : Reads (endsJoined (c :: u)) qs)
    (hnil : ps = [] → qs = [])
    (hclosed : ps.head? = some (.plain '\x7d') → qs.head? = some (.plain '\x7d'))
    (hidle : isIdle ps = true → isIdle qs = true) : Reads joined (.kept kind (c :: u) :: qs) := by
  refine .kept ?_ hqs
  by_cases hp : source ps = []
  · have hpsnil : ps = [] := by
      cases hps with
      | nil => rfl
      | kept | plain | stray | escape | control => simp at hp
    rw [hnil hpsnil, ← hpsnil]
    exact h
  · refine keptAt_congr hp ?_ ?_ h
    · rw [hps.startsClosed_iff, hqs.startsClosed_iff]
      exact hclosed
    · rw [hps.target_eq_zero_iff, hqs.target_eq_zero_iff]
      exact hidle

end Reads

/-- Pieces that end in a plain delimiter and blanks. -/
inductive EndsSegment : List Piece → Prop where
  | delimiter {d : Char} {w : Text} (hd : isDelimiter d = true) (hw : ∀ c ∈ w, isBlank c = true) :
      EndsSegment (.plain d :: w.map .plain)
  | cons (p : Piece) {ps : List Piece} (h : EndsSegment ps) : EndsSegment (p :: ps)

namespace EndsSegment

variable {ps : List Piece}

/-- Blanks may follow the end of a segment. -/
theorem append_blank (h : EndsSegment ps) {c : Char} (hc : isBlank c = true) :
    EndsSegment (ps ++ [.plain c]) := by
  induction h with
  | @delimiter d w hd hw =>
    have hall : ∀ x ∈ w ++ [c], isBlank x = true := by
      intro x hx
      rcases List.mem_append.mp hx with hx | hx
      · exact hw x hx
      · rwa [List.mem_singleton.mp hx]
    have hends := EndsSegment.delimiter hd hall
    rwa [List.map_append] at hends
  | cons p _ ih => exact .cons p ih

/-- What stands before does not matter to the end of a segment. -/
theorem append_left (h : EndsSegment ps) (us : List Piece) : EndsSegment (us ++ ps) := by
  induction us with
  | nil => exact h
  | cons p us ih => exact .cons p ih

/-- Behind its first piece a segment ends as before, or that piece is the delimiter. -/
theorem of_cons {p : Piece} (h : EndsSegment (p :: ps)) : EndsSegment ps ∨
    ∃ (d : Char) (w : Text), p = .plain d ∧ ps = w.map .plain ∧ isDelimiter d = true ∧ ∀ c ∈ w, isBlank c = true := by
  generalize hqs : p :: ps = qs at h
  cases h with
  | @delimiter d w hd hw =>
    cases hqs
    exact .inr ⟨d, w, rfl, rfl, hd, hw⟩
  | cons p h =>
    cases hqs
    exact .inl h

/-- A first piece that is no delimiter can be taken away. -/
theorem tail {p : Piece} (h : EndsSegment (p :: ps))
    (hp : ∀ d, p = .plain d → isDelimiter d = false) : EndsSegment ps := by
  rcases h.of_cons with h | ⟨d, w, rfl, -, hd, -⟩
  · exact h
  · rw [hp d rfl] at hd
    cases hd

theorem ne_nil (h : EndsSegment ps) : ps ≠ [] := by
  cases h <;> exact List.cons_ne_nil _ _

/-- Such pieces have a character of no identifier. -/
theorem exists_mem_source (h : EndsSegment ps) : ∃ d ∈ source ps, isIdent d = false := by
  induction h with
  | @delimiter d w hd hw =>
    exact ⟨d, by rw [source_plain]; exact List.mem_cons_self,
      not_isIdent_of_isPause (isPause_of_isDelimiter hd)⟩
  | cons p h ih =>
    obtain ⟨d, hd, hident⟩ := ih
    exact ⟨d, List.mem_append_right p.text hd, hident⟩

end EndsSegment

namespace Reads

variable {joined : Bool} {ps : List Piece}

/-- Behind the end of a segment nothing makes idle pieces busy. -/
theorem isIdle_append (qs : List Piece) (hends : EndsSegment ps) (h : isIdle ps = true) :
    isIdle (ps ++ qs) = true := by
  induction hends with
  | @delimiter d w hd hw =>
    have hblank : isBlank d = false := by
      have hc : (d = openBrace ∨ d = closeBrace) ∨ d = ';' := by simpa [isDelimiter] using hd
      rcases hc with (rfl | rfl) | rfl <;> decide
    rw [isIdle, hblank, Bool.false_and, Bool.or_false] at h
    rw [List.cons_append, isIdle, h, Bool.true_or]
  | cons p hends ih =>
    cases p with
    | plain c =>
      rw [isIdle, Bool.or_eq_true, Bool.and_eq_true] at h
      rw [List.cons_append, isIdle, Bool.or_eq_true, Bool.and_eq_true]
      exact h.imp_right fun ⟨hc, hps⟩ => ⟨hc, ih hps⟩
    | kept kind t =>
      cases kind with
      | comment => exact ih h
      | noFlip =>
        rw [isIdle, Bool.and_eq_true] at h
        rw [List.cons_append, isIdle, Bool.and_eq_true]
        exact ⟨h.1, ih h.2⟩
      | quoted | url | fontFace | control => cases h

/-- Blanks can be put before pieces that read. -/
theorem blanks {w : Text} {qs : List Piece} (hw : ∀ c ∈ w, isBlank c = true) (h : Reads false qs) :
    Reads false (w.map .plain ++ qs) := by
  induction w with
  | nil => exact h
  | cons c w ih =>
    exact .pause (isPause_of_isBlank (hw c List.mem_cons_self))
      (ih fun d hd => hw d (List.mem_cons_of_mem c hd))

/-- **Pieces that end in a delimiter and blanks can be followed by any others.** Nothing that is read before
the delimiter looks beyond it. -/
theorem append {qs : List Piece} (h : Reads joined ps) (hends : EndsSegment ps) (hqs : Reads false qs) :
    Reads joined (ps ++ qs) := by
  have hbackslash : ∀ d, Piece.plain '\\' = .plain d → isDelimiter d = false := by
    rintro d ⟨⟩
    decide
  induction h with
  | nil => cases hends
  | @kept joined kind c u ps h rest ih =>
    have hends := hends.tail fun d hd => by cases hd
    rw [List.cons_append]
    refine kept_congr h rest (ih hends) ?_ ?_ (isIdle_append qs hends)
    · exact fun hnil => absurd hnil hends.ne_nil
    · intro hhead
      rwa [List.head?_append_of_ne_nil _ hends.ne_nil]
  | @plain joined c ps hc h rest ih =>
    rw [List.cons_append]
    rcases hends.of_cons with hends | ⟨d, w, hd, rfl, hdelimiter, hw⟩
    · obtain ⟨d, hmem, hident⟩ := hends.exists_mem_source
      refine .plain hc ?_ (ih hends)
      refine keptAt_none_congr ?_ ?_ h
      · rw [source_append, window_append hmem hident]
      · rw [source_append, ← (keptAt_eq_none_iff.mp h).1]
        apply Extent.opensComment_congr
        exact List.head?_append_of_ne_nil _ (List.ne_nil_of_mem hmem)
    · cases hd
      exact .pause (isPause_of_isDelimiter hdelimiter) (blanks hw hqs)
  | stray => exact absurd rfl (hends.tail hbackslash).ne_nil
  | @escape joined d ps h rest ih =>
    rw [List.cons_append, List.cons_append]
    rcases (hends.tail hbackslash).of_cons with hends | ⟨d, w, hd, rfl, hdelimiter, hw⟩
    · exact .escape h (ih hends)
    · cases hd
      exact .escape h (not_isIdent_of_isPause (isPause_of_isDelimiter hdelimiter) ▸ blanks hw hqs)
  | control h rest ih => exact .control h (ih (hends.tail hbackslash))

end Reads

end Piece

end BidiSheet
