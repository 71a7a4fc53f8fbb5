import BidiSheet.Proofs.Byte
import BidiSheet.Proofs.Named

/-!
# What a masked sheet hides

Everything that must not be worked on is hidden by masking, byte by byte of the source. What must be
hidden is said of the bytes alone: where a stretch of each kind opens (`Byte.opensAt`), and which bytes
are escaped by a backslash (`Masked.isEscapedAt`). Outside all spans there is no control character, and
nothing opens but what is escaped; and every span begins where a stretch of its kind opens
(`Masked.ofSource_hides`).

A place between two pieces is one of two: either reading goes on there as at the beginning of a source,
or a backslash stands before it (`Piece.Reads.resume`, `Piece.Reads.resume_escaped`). The rest carries this
from places between pieces to bytes.
-/

namespace BidiSheet

open HasSign (sign)
open Marker (isControl)

namespace Byte

/-! ### Where a stretch opens -/

/-- Whether a stretch of some kind opens with the bytes `bs`, if `before` is the byte in front of them. -/
def opens (before : Option UInt8) (bs : List UInt8) : SpanKind → Bool
  | .comment | .noFlip => bs.take 2 = [0x2F, 0x2A]
  | .quoted => bs.head?.any fun b => b = 0x22 || b = 0x27
  | .url => beginsWith (bytes "url(".toList) bs && !before.any isIdent
  | .fontFace => beginsWith (bytes "@font-face".toList) bs && !(bs.drop 10).head?.any isIdent
  | .control => bs.head?.any fun b => b = 0x02 || b = 0x03

/-- Whether a stretch of some kind opens at byte `i`. -/
def opensAt (bs : List UInt8) (i : Nat) (kind : SpanKind) : Bool :=
  opens (bs.take i).getLast? (bs.drop i) kind

/-- Nothing opens with a byte beyond ASCII. -/
theorem opens_beyond {b : UInt8} (hb : 0x80 ≤ b.toNat) (before : Option UInt8) (bs : List UInt8)
    (kind : SpanKind) : opens before (b :: bs) kind = false := by
  have hne : ∀ x : UInt8, x.toNat < 0x80 → b ≠ x := by
    rintro x hx rfl
    omega
  have hlower : ∀ x : UInt8, x.toNat < 0x80 → lower b ≠ x := by
    rintro x hx rfl
    rw [toNat_lower] at hx
    split at hx <;> omega
  cases kind with
  | comment | noFlip => simp [opens, hne 0x2F (by decide)]
  | quoted => simp [opens, hne 0x22 (by decide), hne 0x27 (by decide)]
  | control => simp [opens, hne 0x02 (by decide), hne 0x03 (by decide)]
  | url =>
    show (beginsWith (0x75 :: bytes "rl(".toList) (b :: bs) && _) = false
    rw [beginsWith_cons]
    simp [hlower 0x75 (by decide)]
  | fontFace =>
    show (beginsWith (0x40 :: bytes "font-face".toList) (b :: bs) && _) = false
    rw [beginsWith_cons]
    simp [hlower 0x40 (by decide)]

theorem opens_nil (before : Option UInt8) (kind : SpanKind) : opens before [] kind = false := by
  cases kind <;> rfl

section

variable {p : UInt8 → Bool} {q : Char → Bool}

/-- What can be asked of one character is asked of the first byte. -/
theorem any_head?_bytes (h : ∀ {b c}, StandsFor b c → p b = q c) (t : Text) :
    (bytes t).head?.any p = t.head?.any q := by
  cases t with
  | nil => rfl
  | cons c t =>
    obtain ⟨b, bs, henc, hstands, -⟩ := exists_utf8EncodeChar_eq c
    rw [bytes_cons, henc, List.cons_append, List.head?_cons, List.head?_cons, Option.any_some,
      Option.any_some, h hstands]

/-- What can be asked of one character is asked of the last byte. -/
theorem any_getLast?_bytes (h : ∀ {b c}, StandsFor b c → p b = q c) (t : Text) :
    (bytes t).getLast?.any p = t.getLast?.any q := by
  induction t using List.reverseRecOn with
  | nil => rfl
  | append_singleton t c =>
    obtain ⟨b, bs, henc, -, -⟩ := exists_utf8EncodeChar_eq c
    obtain ⟨b', hlast⟩ : ∃ b', (String.utf8EncodeChar c).getLast? = some b' :=
      ⟨_, List.getLast?_eq_some_getLast (by rw [henc]; exact List.cons_ne_nil b bs)⟩
    have hbytes : bytes [c] = String.utf8EncodeChar c := List.append_nil _
    rw [bytes_append, hbytes, List.getLast?_append, hlast, Option.some_or, List.getLast?_concat,
      Option.any_some, Option.any_some, h (standsFor_of_mem (List.mem_of_getLast? hlast))]

end

end Byte

/-- A comment that ends within a text ends there whatever follows. -/
theorem Extent.comment_of_append {u v : Text} (h : Extent.comment (u ++ v) ≤ u.length) :
    Extent.comment u = Extent.comment (u ++ v) := by
  obtain ⟨u₁, u₂, rfl, hlen⟩ := Extent.exists_split h
  by_cases hv : u₂ ++ v = []
  · rw [(List.append_eq_nil_iff.mp hv).2, List.append_nil]
  · rw [List.append_assoc] at hlen ⊢
    rw [← hlen]
    exact Extent.comment_congr hv u₂ hlen.symm

/-! ### Openers in a text -/

/-- The two characters that open a string. -/
theorem isQuote_sign_iff {c : Char} : (sign c).isQuote = true ↔ c = '"' ∨ c = '\'' := by
  have hdouble : sign c = .doubleQuote ↔ c = '"' := sign_eq_iff_eq (by decide) (by decide) (by decide)
  have hsingle : sign c = .singleQuote ↔ c = '\'' := sign_eq_iff_eq (by decide) (by decide) (by decide)
  simp [Sign.isQuote, hdouble, hsingle]

namespace Piece

/-- Whether a stretch of some kind opens with `c` before `cs`. `joined` says that an identifier reaches up
to here. -/
def opens (joined : Bool) (c : Char) (cs : Text) : SpanKind → Bool
  | .comment | .noFlip => Extent.opensComment c cs
  | .quoted => (sign c).isQuote
  | .url => opensUrl joined (c :: cs)
  | .fontFace => opensFontFace (c :: cs)
  | .control => isControl c

/-- A character is plain exactly if no kind of stretch opens with it. -/
theorem keptAt_eq_none_iff_opens {joined : Bool} {c : Char} {cs : Text} :
    keptAt joined c cs = none ↔ ∀ kind, opens joined c cs kind = false := by
  rw [keptAt_eq_none_iff]
  constructor
  · rintro ⟨hcomment, hquote, hurl, hface, hcontrol⟩ kind
    cases kind <;> assumption
  · intro h
    exact ⟨h .comment, h .quoted, h .url, h .fontFace, h .control⟩

/-- A kept stretch opens with its first character. -/
theorem opens_of_keptAt {joined : Bool} {c : Char} {cs : Text} {kind : SpanKind} {n : Nat}
    (h : keptAt joined c cs = some (kind, n)) : opens joined c cs kind = true := by
  rcases keptAt_cases h with ⟨h, -, rfl, -⟩ | ⟨-, h, -, rfl, -⟩ | ⟨h, rfl, -⟩ | ⟨h, rfl, -⟩ |
    ⟨h, rfl, -⟩ | ⟨h, rfl, -⟩ <;> assumption

/-- A stretch with a comment at its front is a no-flip stretch exactly if that comment asks for it. -/
theorem isNoFlip_front_iff {joined : Bool} {c : Char} {u v : Text} {kind : SpanKind}
    (h : keptAt joined c (u ++ v) = some (kind, u.length)) (hkind : kind = .comment ∨ kind = .noFlip) :
    kind = .noFlip ↔ isNoFlip ((c :: u).take (Extent.comment ((c :: u).drop 2) + 2)) = true := by
  have hfront : ∀ m, m = Extent.comment (u ++ v).tail + 1 → m ≤ u.length →
      (c :: u).take (Extent.comment ((c :: u).drop 2) + 2) = c :: (u ++ v).take m := by
    rintro _ rfl hle
    cases u with
    | nil => exact absurd hle (Nat.not_succ_le_zero _)
    | cons d w =>
      have hcomment : Extent.comment w = Extent.comment (w ++ v) :=
        Extent.comment_of_append (Nat.le_of_succ_le_succ hle)
      show (c :: d :: w).take (Extent.comment w + 2) = _
      rw [hcomment, List.take_append_of_le_length hle]
      rfl
  rcases keptAt_cases h with ⟨-, hn, rfl, hnot⟩ | ⟨m, -, hm, rfl, hyes, hn⟩ | hrest
  · rw [hfront _ hn (Nat.le_refl _), hnot]
    simp
  · rw [hfront m hm (by omega), hyes]
    simp
  · rcases hrest with ⟨-, rfl, -⟩ | ⟨-, rfl, -⟩ | ⟨-, rfl, -⟩ | ⟨-, rfl, -⟩ <;> simp at hkind

/-- **What opens is seen alike in a text and in its bytes.** -/
theorem opens_bytes (before : Text) (c : Char) (cs : Text) (kind : SpanKind) :
    Byte.opens (bytes before).getLast? (bytes (c :: cs)) kind
      = opens (endsJoined before) c cs kind := by
  have hcomment : decide ((bytes (c :: cs)).take 2 = [0x2F, 0x2A]) = Extent.opensComment c cs := by
    obtain ⟨b, bs, henc, hstands, -⟩ := Byte.exists_utf8EncodeChar_eq c
    have hslash : b = 0x2F ↔ c = '/' := Byte.eq_code_iff hstands '/' (by decide)
    by_cases hc : c = '/'
    · subst hc
      have hstar : (bytes cs).head?.any (· = 0x2A) = cs.head?.any (sign · = .star) := by
        refine Byte.any_head?_bytes (fun {b c} h => ?_) cs
        rw [decide_eq_decide, sign_eq_star_iff]
        exact Byte.eq_code_iff h '*' (by decide)
      rw [Extent.opensComment, ← hstar]
      show decide ((0x2F :: bytes cs).take 2 = [0x2F, 0x2A]) = (true && _)
      cases bytes cs with
      | nil => rfl
      | cons x xs => simp
    · rw [bytes_cons, henc, Extent.opensComment]
      simp [sign_eq_slash_iff, hc, hslash]
  cases kind with
  | comment => exact hcomment
  | noFlip => exact hcomment
  | quoted =>
    refine Byte.any_head?_bytes (q := fun c => (sign c).isQuote) (fun {b c} h => ?_) (c :: cs)
    have hdouble : b = 0x22 ↔ c = '"' := Byte.eq_code_iff h '"' (by decide)
    have hsingle : b = 0x27 ↔ c = '\'' := Byte.eq_code_iff h '\'' (by decide)
    rw [Bool.eq_iff_iff, isQuote_sign_iff, Bool.or_eq_true, decide_eq_true_eq, decide_eq_true_eq,
      hdouble, hsingle]
  | control =>
    refine Byte.any_head?_bytes (q := isControl) (fun {b c} h => ?_) (c :: cs)
    have hopener : b = 0x02 ↔ c = Marker.opener := Byte.eq_code_iff h Marker.opener (by decide)
    have hcloser : b = 0x03 ↔ c = Marker.closer := Byte.eq_code_iff h Marker.closer (by decide)
    simp only [isControl, hopener, hcloser]
  | url =>
    rw [Byte.opens, Byte.beginsWith_bytes (by decide), Byte.any_getLast?_bytes Byte.isIdent_eq, opens,
      opensUrl, endsJoined, Bool.and_comm]
  | fontFace =>
    rw [Byte.opens, Byte.beginsWith_bytes (by decide), opens, opensFontFace]
    rcases hword : beginsWith "@font-face".toList (c :: cs) with _ | _
    · rfl
    · have hdrop := Byte.drop_of_beginsWith (by decide) hword
      rw [show "@font-face".toList.length = 10 from rfl] at hdrop
      rw [hdrop, Byte.any_head?_bytes Byte.isIdent_eq]

/-! ### Places between pieces -/

/-- Whether what follows a piece is escaped, if `escaped` says whether the piece itself is. -/
def escapesNext (escaped : Bool) : Piece → Bool
  | .plain c => c = '\\' && !escaped
  | .kept _ _ => false

/-- Whether what follows some pieces is escaped. -/
def escapes (ps : List Piece) : Bool := ps.foldl escapesNext false

/-- Whether the next piece is escaped is seen from the last one. -/
theorem escapes_append_singleton (ps : List Piece) (p : Piece) :
    escapes (ps ++ [p]) = escapesNext (escapes ps) p := by
  simp [escapes]

/-- Whether an identifier reaches up to the end of some pieces. `joined` says whether one reaches up to
their beginning. -/
def joins (joined : Bool) (ps : List Piece) : Bool := (source ps).getLast?.elim joined isIdent

/-- At the beginning no identifier reaches up to here. -/
theorem joins_false (ps : List Piece) : joins false ps = endsJoined (source ps) := by
  unfold joins endsJoined
  cases (source ps).getLast? <;> rfl

/-- A plain character decides whether an identifier goes on. -/
theorem joins_plain (joined : Bool) (c : Char) (ps : List Piece) :
    joins joined (.plain c :: ps) = joins (isIdent c) ps := by
  unfold joins
  rw [source_plain, ← List.singleton_append, List.getLast?_append]
  cases (source ps).getLast? <;> rfl

/-- A kept stretch decides whether an identifier goes on. -/
theorem joins_kept (joined : Bool) (kind : SpanKind) (c : Char) (u : Text) (ps : List Piece) :
    joins joined (.kept kind (c :: u) :: ps) = joins (endsJoined (c :: u)) ps := by
  unfold joins endsJoined
  rw [source_kept, List.getLast?_append]
  cases (source ps).getLast? with
  | some d => rfl
  | none =>
    rw [Option.none_or, List.getLast?_eq_some_getLast (List.cons_ne_nil c u)]
    rfl

namespace Reads

variable {joined : Bool}

/-- **Where nothing is escaped, reading goes on** as at the beginning of a source. -/
theorem resume {us qs : List Piece} (h : Reads joined (us ++ qs)) (hus : escapes us = false) :
    Reads (joins joined us) qs := by
  generalize hps : us ++ qs = ps at h
  unfold escapes at hus
  -- along the reading: `us` ends within the pieces that one step of it reads, or behind them
  induction h generalizing us with
  | nil =>
    obtain ⟨rfl, rfl⟩ := List.append_eq_nil_iff.mp hps
    exact .nil
  | @kept joined kind c u ps h rest ih =>
    cases us with
    | nil =>
      cases hps
      exact .kept h rest
    | cons p us =>
      cases hps
      rw [joins_kept]
      exact ih hus rfl
  | @plain joined c ps hc h rest ih =>
    cases us with
    | nil =>
      cases hps
      exact .plain hc h rest
    | cons p us =>
      cases hps
      rw [joins_plain]
      refine ih ?_ rfl
      rwa [List.foldl_cons, escapesNext, decide_eq_false hc] at hus
  | @stray joined =>
    cases us with
    | nil =>
      cases hps
      exact .stray
    | cons p us =>
      obtain ⟨rfl, hnil⟩ := List.cons.inj hps
      obtain ⟨rfl, rfl⟩ := List.append_eq_nil_iff.mp hnil
      cases hus
  | @escape joined d ps h rest ih =>
    match us with
    | [] =>
      cases hps
      exact .escape h rest
    | [p] =>
      cases hps
      cases hus
    | p :: p' :: us =>
      cases hps
      rw [joins_plain, joins_plain]
      refine ih ?_ rfl
      simpa [escapesNext] using hus
  | @control joined d ps h rest ih =>
    match us with
    | [] =>
      cases hps
      exact .control h rest
    | [p] =>
      cases hps
      cases hus
    | p :: p' :: us =>
      cases hps
      rw [joins_plain]
      have htail : (Piece.kept .control [d] :: us).foldl escapesNext false = false := by
        simpa [escapesNext] using hus
      exact ih htail rfl

/-- Where something is escaped, a backslash has been read before it. -/
theorem resume_escaped {us qs : List Piece} (h : Reads joined (us ++ qs)) (hus : escapes us = true) :
    ∃ joined', Reads joined' (.plain '\\' :: qs) := by
  induction us using List.reverseRecOn with
  | nil => cases hus
  | append_singleton us p =>
    rw [escapes_append_singleton] at hus
    cases p with
    | kept kind t => cases hus
    | plain c =>
      rw [escapesNext, Bool.and_eq_true, decide_eq_true_eq, Bool.not_eq_true'] at hus
      obtain ⟨rfl, hus⟩ := hus
      rw [List.append_assoc] at h
      exact ⟨_, resume h hus⟩

/-- A plain character that is not escaped opens nothing. -/
theorem opens_plain {us vs : List Piece} {c : Char} (h : Reads joined (us ++ .plain c :: vs))
    (hus : escapes us = false) (kind : SpanKind) :
    opens (joins joined us) c (source vs) kind = false := by
  refine keptAt_eq_none_iff_opens.mp ?_ kind
  cases resume h hus with
  | plain hc h rest => exact h
  | stray => exact keptAt_backslash _ _
  | escape h rest => exact keptAt_backslash _ _
  | control h rest => exact keptAt_backslash _ _

/-- A kept stretch is one of its kind, and is not escaped unless it is a control character. -/
theorem keptAt_kept {us vs : List Piece} {kind : SpanKind} {c : Char} {u : Text}
    (h : Reads joined (us ++ .kept kind (c :: u) :: vs)) :
    (kind ≠ .control → escapes us = false) ∧
      keptAt (joins joined us) c (u ++ source vs) = some (kind, u.length) := by
  rcases hus : escapes us with _ | _
  · refine ⟨fun _ => rfl, ?_⟩
    cases resume h hus with
    | kept h rest => exact h
  · obtain ⟨joined', hread⟩ := resume_escaped h hus
    cases hread with
    | plain hc h rest => exact absurd rfl hc
    | control hd rest => exact ⟨fun hkind => absurd rfl hkind, keptAt_control hd _⟩

end Reads

/-- Every byte of a source belongs to one of its pieces. -/
theorem exists_piece_at {ps : List Piece} {i : Nat} (h : i < byteSize (source ps)) :
    ∃ us p vs, ps = us ++ p :: vs ∧ byteSize (source us) ≤ i ∧
      i < byteSize (source us) + byteSize p.text := by
  induction ps generalizing i with
  | nil => exact absurd h (Nat.not_lt_zero i)
  | cons p ps ih =>
    have hsource : source (p :: ps) = p.text ++ source ps := rfl
    by_cases hi : i < byteSize p.text
    · exact ⟨[], p, ps, rfl, Nat.zero_le i, by simpa using hi⟩
    · rw [hsource, byteSize_append] at h
      obtain ⟨us, q, vs, rfl, hle, hlt⟩ := ih (i := i - byteSize p.text) (by omega)
      refine ⟨p :: us, q, vs, rfl, ?_, ?_⟩ <;>
      · rw [show source (p :: us) = p.text ++ source us from rfl, byteSize_append]
        omega

end Piece

namespace Masked

/-! ### Kept and escaped bytes -/

/-- Whether byte `i` of a source lies in one of its spans. -/
def isKeptAt (spans : List Span) (i : Nat) : Bool :=
  spans.any fun span => span.start ≤ i && i < span.stop

/-- Whether byte `i` of a source is escaped: the byte before it is a backslash that lies in no span and is
not escaped itself. -/
def isEscapedAt (spans : List Span) (bs : List UInt8) : Nat → Bool
  | 0 => false
  | i + 1 => bs[i]? = some 0x5C && !isKeptAt spans i && !isEscapedAt spans bs i

/-- No span ends behind the pieces. -/
theorem stop_le_of_mem_spansFrom {offset : Nat} {ps : List Piece} {span : Span}
    (h : span ∈ spansFrom offset ps) : span.stop ≤ offset + byteSize (Piece.source ps) := by
  induction ps generalizing offset with
  | nil => exact absurd h List.not_mem_nil
  | cons p ps ih =>
    cases p with
    | plain c =>
      have hle := ih h
      rw [Piece.source_plain, byteSize_cons]
      omega
    | kept kind t =>
      rw [Piece.source_kept, byteSize_append]
      rcases List.mem_cons.mp h with rfl | h
      · exact Nat.add_le_add_left (Nat.le_add_right _ _) offset
      · have hle := ih h
        omega

/-- **A byte lies in a span exactly if its piece is kept.** -/
theorem isKeptAt_spansFrom {us vs : List Piece} {p : Piece} {i : Nat}
    (hle : byteSize (Piece.source us) ≤ i)
    (hlt : i < byteSize (Piece.source us) + byteSize p.text) :
    isKeptAt (spansFrom 0 (us ++ p :: vs)) i = p.isKept := by
  have hus : isKeptAt (spansFrom 0 us) i = false := by
    refine List.any_eq_false.mpr fun span hspan => ?_
    have hstop := stop_le_of_mem_spansFrom hspan
    simp only [Bool.and_eq_true, decide_eq_true_eq]
    omega
  have hvs : ∀ {offset}, i < offset → isKeptAt (spansFrom offset vs) i = false := by
    intro offset hoffset
    refine List.any_eq_false.mpr fun span hspan => ?_
    have hstart := le_start_of_mem_spansFrom hspan
    simp only [Bool.and_eq_true, decide_eq_true_eq]
    omega
  rw [spansFrom_append, isKeptAt, List.any_append, ← isKeptAt, ← isKeptAt, hus, Bool.false_or,
    Nat.zero_add]
  cases p with
  | plain c =>
    rw [Piece.text, byteSize_cons, byteSize_nil] at hlt
    exact hvs (by omega)
  | kept kind t =>
    rw [spansFrom, isKeptAt, List.any_cons]
    rw [Piece.text] at hlt
    simp [hle, hlt, Piece.isKept]

/-- Whether a backslash is the last character before some place is seen from the byte before it. -/
theorem getElem?_bytes_eq_backslash {s : Text} {i : Nat} (hi : i + 1 = byteSize s) (t : Text) :
    decide ((bytes (s ++ t))[i]? = some 0x5C) = s.getLast?.any (· = '\\') := by
  have hlt : i < (bytes s).length := by rw [length_bytes]; omega
  have hlast : (bytes (s ++ t))[i]? = (bytes s).getLast? := by
    rw [bytes_append, List.getElem?_append_left hlt, List.getLast?_eq_getElem?, length_bytes, ← hi,
      Nat.add_sub_cancel]
  have hany := Byte.any_getLast?_bytes (p := (· = 0x5C)) (q := (· = '\\'))
    (fun h => decide_eq_decide.mpr (Byte.eq_code_iff h '\\' (by decide))) s
  rw [hlast, ← hany]
  cases (bytes s).getLast? <;> simp

/-- **A place between pieces is escaped exactly if the pieces before it say so.** -/
theorem isEscapedAt_spansFrom {us : List Piece} (hus : ∀ p ∈ us, p.text ≠ []) (vs : List Piece) :
    isEscapedAt (spansFrom 0 (us ++ vs)) (bytes (Piece.source (us ++ vs))) (byteSize (Piece.source us))
      = Piece.escapes us := by
  induction us using List.reverseRecOn generalizing vs with
  | nil => rfl
  | append_singleton us p ih =>
    have hpos : 0 < byteSize p.text :=
      Nat.lt_of_lt_of_le (List.length_pos_iff.mpr (hus p (by simp))) (length_le_byteSize p.text)
    have hsource : Piece.source (us ++ [p]) = Piece.source us ++ p.text := by
      rw [Piece.source_append]
      exact congrArg _ (List.append_nil p.text)
    obtain ⟨i, hi⟩ : ∃ i, i + 1 = byteSize (Piece.source (us ++ [p])) := by
      rw [hsource, byteSize_append]
      exact ⟨byteSize (Piece.source us) + byteSize p.text - 1, by omega⟩
    have hi' : i + 1 = byteSize (Piece.source us) + byteSize p.text := by
      rw [hi, hsource, byteSize_append]
    have hkept : isKeptAt (spansFrom 0 (us ++ [p] ++ vs)) i = p.isKept := by
      rw [List.append_assoc]
      exact isKeptAt_spansFrom (by omega) (by omega)
    have hbackslash := getElem?_bytes_eq_backslash hi (Piece.source vs)
    rw [← Piece.source_append, hsource] at hbackslash
    rw [← hi, isEscapedAt, hkept, hbackslash, Piece.escapes_append_singleton]
    cases p with
    | kept kind t => simp [Piece.isKept, Piece.escapesNext]
    | plain c =>
      rw [Piece.text, List.getLast?_concat, Option.any_some, Piece.isKept, Piece.escapesNext]
      by_cases hc : c = '\\'
      · -- the backslash is one byte, so the byte before this place is where the pieces `us` end
        have hplace : i = byteSize (Piece.source us) := by
          rw [hc] at hi'
          exact Nat.succ.inj hi'
        have hih := ih (fun q hq => hus q (List.mem_append_left _ hq)) (.plain c :: vs)
        rw [List.append_assoc, List.singleton_append, hplace, hih]
        simp
      · simp [hc]

/-! ### Nothing leaks -/

/-- How a span begins: with the opener of its kind, which is not escaped unless it is a control character.
A span with a comment at its front is a no-flip span exactly if that comment asks for it. -/
structure Opened (spans : List Span) (source : Text) (span : Span) : Prop where
  opensAt : Byte.opensAt (bytes source) span.start span.kind = true
  not_isEscapedAt : span.kind ≠ .control → isEscapedAt spans (bytes source) span.start = false
  noFlip_iff : span.kind = .comment ∨ span.kind = .noFlip →
    (span.kind = .noFlip ↔
      Piece.isNoFlip (span.text.take (Extent.comment (span.text.drop 2) + 2)) = true)

/-- A span belongs to a kept piece. -/
theorem exists_of_mem_spansFrom {ps : List Piece} {span : Span} (h : span ∈ spansFrom 0 ps) :
    ∃ us vs, ps = us ++ .kept span.kind span.text :: vs ∧
      span.start = byteSize (Piece.source us) := by
  suffices ∀ offset, span ∈ spansFrom offset ps → ∃ us vs,
      ps = us ++ .kept span.kind span.text :: vs ∧
        span.start = offset + byteSize (Piece.source us) by
    simpa using this 0 h
  clear h
  induction ps with
  | nil => exact fun offset h => absurd h List.not_mem_nil
  | cons p ps ih =>
    intro offset h
    have hlater : ∀ offset', span ∈ spansFrom offset' ps → offset' = offset + byteSize p.text →
        ∃ us vs, p :: ps = us ++ .kept span.kind span.text :: vs ∧
          span.start = offset + byteSize (Piece.source us) := by
      rintro _ h rfl
      obtain ⟨us, vs, rfl, hstart⟩ := ih _ h
      refine ⟨p :: us, vs, rfl, ?_⟩
      rw [hstart, show Piece.source (p :: us) = p.text ++ Piece.source us from rfl, byteSize_append,
        Nat.add_assoc]
    cases p with
    | plain c => exact hlater _ h (by simp [Piece.text])
    | kept kind t =>
      rcases List.mem_cons.mp h with rfl | h
      · exact ⟨[], ps, rfl, rfl⟩
      · exact hlater _ h rfl

/-- What opens at the end of some pieces is what opens in the text behind them. -/
theorem opensAt_source (us : List Piece) (c : Char) (cs : Text) (kind : SpanKind) :
    Byte.opensAt (bytes (Piece.source us ++ c :: cs)) (byteSize (Piece.source us)) kind
      = Piece.opens (Piece.joins false us) c cs kind := by
  rw [Byte.opensAt, take_bytes, drop_bytes, Piece.opens_bytes, Piece.joins_false]

/-- Nothing opens within a character. -/
theorem opensAt_within {s t : Text} {c : Char} {i : Nat} (hle : byteSize s < i)
    (hlt : i < byteSize s + c.utf8Size) (kind : SpanKind) :
    Byte.opensAt (bytes (s ++ c :: t)) i kind = false := by
  obtain ⟨b, bs, henc, -, hbeyond⟩ := Byte.exists_utf8EncodeChar_eq c
  have hlen : c.utf8Size = bs.length + 1 := by
    rw [← String.length_utf8EncodeChar, henc, List.length_cons]
  obtain ⟨j, rfl⟩ : ∃ j, i = byteSize s + (j + 1) := ⟨i - byteSize s - 1, by omega⟩
  have hj : j < bs.length := by omega
  have hdrop : (bytes (s ++ c :: t)).drop (byteSize s + (j + 1)) = bs.drop j ++ bytes t := by
    rw [← List.drop_drop, drop_bytes, bytes_cons, henc, List.cons_append, List.drop_succ_cons,
      List.drop_append_of_le_length (Nat.le_of_lt hj)]
  rw [Byte.opensAt, hdrop, List.drop_eq_getElem_cons hj, List.cons_append]
  exact Byte.opens_beyond (hbeyond _ (List.getElem_mem hj)) _ _ kind

section

variable {ps : List Piece} (hreads : Piece.Reads false ps) (hsound : Piece.Sound ps)

include hreads hsound

/-- No control character, and nothing that is not escaped, opens outside the spans. -/
theorem opensAt_outside {i : Nat} (hkept : isKeptAt (spansFrom 0 ps) i = false) :
    Byte.opensAt (bytes (Piece.source ps)) i .control = false ∧
      (isEscapedAt (spansFrom 0 ps) (bytes (Piece.source ps)) i = false →
        ∀ kind, Byte.opensAt (bytes (Piece.source ps)) i kind = false) := by
  by_cases hi : i < byteSize (Piece.source ps)
  · obtain ⟨us, p, vs, rfl, hle, hlt⟩ := Piece.exists_piece_at hi
    rw [isKeptAt_spansFrom hle hlt] at hkept
    cases p with
    | kept kind t => cases hkept
    | plain c =>
      have hsource : Piece.source (us ++ .plain c :: vs) = Piece.source us ++ c :: Piece.source vs := by
        simp
      rw [Piece.text, byteSize_cons, byteSize_nil, Nat.add_zero] at hlt
      rcases Nat.eq_or_lt_of_le hle with rfl | hwithin
      · -- at the first byte of `c`, reading is at the place between `us` and `c`
        have hus : ∀ p ∈ us, p.text ≠ [] := fun p hp =>
          hsound.text_ne_nil p (List.mem_append_left _ hp)
        have hcontrol : isControl c = false := hsound.not_isControl c (by simp)
        rw [isEscapedAt_spansFrom hus]
        rw [hsource]
        refine ⟨?_, fun hescapes kind => ?_⟩
        · rw [opensAt_source]
          exact hcontrol
        · rw [opensAt_source]
          exact hreads.opens_plain hescapes kind
      · rw [hsource]
        have hnone := opensAt_within (t := Piece.source vs) hwithin hlt
        exact ⟨hnone .control, fun _ => hnone⟩
  · have hend : ∀ kind, Byte.opensAt (bytes (Piece.source ps)) i kind = false := by
      intro kind
      rw [Byte.opensAt, List.drop_of_length_le (by rw [length_bytes]; omega), Byte.opens_nil]
    exact ⟨hend .control, fun _ => hend⟩

/-- Every span of pieces that read begins where a stretch of its kind opens. -/
theorem opened_of_mem_spansFrom {span : Span} (h : span ∈ spansFrom 0 ps) :
    Opened (spansFrom 0 ps) (Piece.source ps) span := by
  obtain ⟨us, vs, rfl, hstart⟩ := exists_of_mem_spansFrom h
  have hus : ∀ p ∈ us, p.text ≠ [] := fun p hp => hsound.text_ne_nil p (List.mem_append_left _ hp)
  obtain ⟨c, u, htext⟩ : ∃ c u, span.text = c :: u :=
    List.exists_cons_of_ne_nil (hsound.text_ne_nil (.kept span.kind span.text) (by simp))
  have hsource : Piece.source (us ++ .kept span.kind span.text :: vs)
      = Piece.source us ++ c :: (u ++ Piece.source vs) := by
    simp [htext]
  rw [htext] at hreads
  obtain ⟨hescapes, hkept⟩ := hreads.keptAt_kept
  refine ⟨?_, fun hkind => ?_, fun hkind => ?_⟩
  · rw [hsource, hstart, opensAt_source]
    exact Piece.opens_of_keptAt hkept
  · rw [hstart, isEscapedAt_spansFrom hus]
    exact hescapes hkind
  · rw [htext]
    exact Piece.isNoFlip_front_iff hkept hkind

end

/-- **Masking hides all that must be hidden.** A byte outside all spans of a source is no control character,
escaped or not; and if it is not escaped, then no comment, string, url or font face begins there. Every
span begins with the opener of its kind, and only control characters may be escaped. -/
theorem ofSource_hides (source : Text) :
    (∀ i, isKeptAt (ofSource source).spans i = false →
      Byte.opensAt (bytes source) i .control = false ∧
        (isEscapedAt (ofSource source).spans (bytes source) i = false →
          ∀ kind, Byte.opensAt (bytes source) i kind = false)) ∧
      ∀ span ∈ (ofSource source).spans, Opened (ofSource source).spans source span := by
  have hreads : Piece.Reads false (pieces source) := Piece.reads_cut false source
  have hsound : Piece.Sound (pieces source) := Piece.sound_cut false source
  have houtside := fun i => opensAt_outside hreads hsound (i := i)
  have hopened : ∀ span ∈ spansFrom 0 (pieces source), Opened _ _ span :=
    fun _ => opened_of_mem_spansFrom hreads hsound
  rw [Piece.source_pieces] at houtside hopened
  exact ⟨houtside, hopened⟩

/-- In `é\"\\'x'` the first quote is escaped and stays plain. The second is not, since the backslash before
it is escaped itself, and a string begins there. -/
theorem ofSource_hides_escaped :
    let source := "é\\\"\\\\'x'".toList
    let spans := (ofSource source).spans
    (isKeptAt spans 2 = false ∧ isEscapedAt spans (bytes source) 2 = false ∧
      ∀ kind, Byte.opensAt (bytes source) 2 kind = false) ∧
    (isKeptAt spans 3 = false ∧ isEscapedAt spans (bytes source) 3 = true ∧
      Byte.opensAt (bytes source) 3 .quoted = true ∧ Byte.opensAt (bytes source) 3 .control = false) ∧
    (⟨.quoted, 6, 9, "'x'".toList⟩ ∈ spans ∧
      Opened spans source ⟨.quoted, 6, 9, "'x'".toList⟩) := by
  intro source spans
  have hhides := ofSource_hides source
  have hkept : isKeptAt spans 2 = false := by decide +kernel
  have hescaped : isEscapedAt spans (bytes source) 2 = false := by decide +kernel
  have hkept' : isKeptAt spans 3 = false := by decide +kernel
  have hspan : (⟨.quoted, 6, 9, "'x'".toList⟩ : Span) ∈ spans := by decide +kernel
  exact ⟨⟨hkept, hescaped, (hhides.1 2 hkept).2 hescaped⟩,
    ⟨hkept', by decide +kernel, by decide +kernel, (hhides.1 3 hkept').1⟩, hspan, hhides.2 _ hspan⟩

end Masked

end BidiSheet
