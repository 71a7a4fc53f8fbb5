import BidiSheet.Proofs.Byte.Loop
import BidiSheet.Proofs.Target

/-!
# Where scanners end

The loops of the scanners run over the bytes of a text (`Loop`). Each is called only where a certain byte stands, and
that byte is a character of its own, so a loop begins between two characters. From there on it reads the bytes of what
its extent reads of the text, and it leaves the bytes of what its extent leaves. So it ends, and it ends between two
characters, wherever its steps may have landed before.

* `Scanner.Opens`: what a scanner finds in the text where it is called.
* `Scanner.run_of_opens`: the answer of each loop.
* `Scanner.run_ends`: every call of a scanner has an answer behind its start and between two characters, and the spans
  of a source end where the loops do.
-/

namespace BidiSheet

open HasSign (sign)

/-- The scanners of a stylesheet: of comments, strings, urls, declarations or rules, blocks, and of what a no-flip
comment guards. -/
inductive Scanner where
  | comment
  | string
  | url
  | rule
  | block
  | target
  deriving DecidableEq, Repr

namespace Scanner

/-- The loop of a scanner. -/
def run : Scanner → List UInt8 → Nat → Part Nat
  | .comment => Loop.comment
  | .string => Loop.string
  | .url => Loop.url
  | .rule => Loop.rule
  | .block => Loop.block
  | .target => Loop.target

/-- The number of characters that a scanner takes from the front of a text. -/
def extent : Scanner → Text → Nat
  | .comment, t => Extent.comment (t.drop 2) + 2
  | .string, [] => 0
  | .string, c :: cs => Extent.string (sign c) cs + 1
  | .url, t => Extent.url (t.drop 4) + 4
  | .rule, t => Extent.rule 0 t
  | .block, t => Extent.block 0 (t.drop 1) + 1
  | .target, t => Extent.target t

/-! ### Calls -/

/-- Whether a comment ends at an offset. -/
def EndsComment (bs : List UInt8) (i : Nat) : Prop :=
  ∃ start, Loop.opensComment bs start = true ∧ Loop.comment bs start = .some i

/-- Where a scanner is called: at the bytes that open its construct. A declaration or rule is also read behind the
blanks and comments that follow a comment, if there is more in the block. -/
def CalledAt (bs : List UInt8) (i : Nat) : Scanner → Prop
  | .comment => Loop.opensComment bs i = true
  | .string => (Loop.look bs i).any Sign.isQuote = true
  | .url => Byte.beginsWith (bytes "url(".toList) (bs.drop i) = true
  | .rule =>
    Byte.beginsWith (bytes "@font-face".toList) (bs.drop i) = true ∨
      ∃ start, EndsComment bs start ∧ Loop.trivia bs start = .some i ∧
        Loop.look bs i ≠ none ∧ Loop.look bs i ≠ some .closeBrace
  | .block => Loop.look bs i = some .openBrace
  | .target => EndsComment bs i

/-- What a scanner finds in a text where it is called. -/
def Opens : Scanner → Text → Prop
  | .comment, t => ∃ c d cs, t = c :: d :: cs ∧ sign c = .slash ∧ sign d = .star
  | .string, t => ∃ c cs, t = c :: cs ∧ (sign c).isQuote = true
  | .url, t => beginsWith "url(".toList t = true
  | .rule, t => ∃ c cs, t = c :: cs ∧ sign c ≠ .closeBrace
  | .block, t => ∃ c cs, t = c :: cs ∧ sign c = .openBrace
  | .target, _ => True

variable {s : Scanner} {t u v : Text} {i : Nat}

/-- What is left of the bytes of a text begins where what is left of the text begins. -/
theorem offset_bytes (u v : Text) (n : Nat) :
    Loop.offset (bytes (u ++ v)) (bytes (v.drop n)) = byteSize u + byteSize (v.take n) := by
  have hsplit : byteSize v = byteSize (v.take n) + byteSize (v.drop n) := by
    rw [← byteSize_append, List.take_append_drop]
  rw [Loop.offset, length_bytes, length_bytes, byteSize_append, hsplit]
  omega

/-- **A loop takes the bytes of what its extent takes of the text.** -/
theorem run_of_opens (h : s.Opens v) (u : Text) :
    s.run (bytes (u ++ v)) (byteSize u) = .some (byteSize u + byteSize (v.take (s.extent v))) := by
  have hdrop : (bytes (u ++ v)).drop (byteSize u) = bytes v := drop_bytes u v
  rw [← offset_bytes]
  cases s with
  | comment =>
    obtain ⟨c, d, cs, rfl, hc, hd⟩ := h
    obtain ⟨-, b, -, hbytes⟩ := Extent.exists_single (c := c) (by simp [hc])
    obtain ⟨-, b', -, hbytes'⟩ := Extent.exists_single (c := d) (by simp [hd])
    rw [hbytes, hbytes'] at hdrop
    rw [run, Loop.comment_eq hdrop, Extent.comment_bytes, Extent.drop_bytes_take]
    rfl
  | string =>
    obtain ⟨c, cs, rfl, hc⟩ := h
    have hne : sign c ≠ .other := by
      intro hother
      simp [hother, Sign.isQuote] at hc
    obtain ⟨-, b, hb, hbytes⟩ := Extent.exists_single hne
    rw [hbytes] at hdrop
    rw [run, Loop.string_eq hdrop, hb, Extent.string_bytes hne, Extent.drop_bytes_take]
    rfl
  | url =>
    have hback : (bytes (u ++ v)).drop (byteSize u + 4) = bytes (v.drop 4) := by
      rw [← List.drop_drop, hdrop]
      exact Byte.drop_of_beginsWith (by decide) h
    rw [run, Loop.url, Loop.fix_urlTurn hback, Extent.url_bytes, Extent.drop_bytes_take, List.drop_drop, extent,
      Nat.add_comm 4]
  | rule => rw [run, Loop.rule_eq hdrop, Extent.rule_bytes, Extent.drop_bytes_take, extent]
  | block =>
    obtain ⟨c, cs, rfl, hc⟩ := h
    obtain ⟨-, b, hb, hbytes⟩ := Extent.exists_single (c := c) (by simp [hc])
    rw [hbytes] at hdrop
    rw [run, Loop.block_eq hdrop (hb.trans hc), Extent.block_bytes, Extent.drop_bytes_take]
    rfl
  | target =>
    have hle : byteSize u ≤ (bytes (u ++ v)).length := by
      rw [length_bytes, byteSize_append]
      exact Nat.le_add_right _ _
    rw [run, Loop.target_eq hdrop hle, Extent.target_bytes, Extent.drop_bytes_take, extent]

/-- What is opened has a first character. -/
theorem extent_pos (h : s.Opens v) (hs : s ≠ .target) : 0 < byteSize (v.take (s.extent v)) := by
  have hcons : ∀ {c : Char} {cs : Text} {n : Nat}, 0 < n → 0 < byteSize ((c :: cs).take n) := by
    intro c cs n hn
    obtain ⟨m, rfl⟩ := Nat.exists_eq_succ_of_ne_zero (Nat.ne_of_gt hn)
    rw [Extent.byteSize_take_succ]
    exact Nat.add_pos_left c.utf8Size_pos _
  cases s with
  | comment =>
    obtain ⟨c, d, cs, rfl, -, -⟩ := h
    exact hcons (Nat.succ_pos _)
  | string =>
    obtain ⟨c, cs, rfl, -⟩ := h
    exact hcons (Nat.succ_pos _)
  | url =>
    cases v with
    | nil => cases h
    | cons c cs => exact hcons (Nat.succ_pos _)
  | rule =>
    obtain ⟨c, cs, rfl, hc⟩ := h
    exact hcons (Extent.rule_pos hc cs)
  | block =>
    obtain ⟨c, cs, rfl, -⟩ := h
    exact hcons (Nat.succ_pos _)
  | target => exact absurd rfl hs

/-! ### Starts of scanners -/

/-- An ASCII byte of a text is where one of its characters begins. -/
theorem exists_of_getElem? {b : UInt8} (h : (bytes t)[i]? = some b) (hb : b.toNat < 0x80) :
    ∃ u c v, t = u ++ c :: v ∧ byteSize u = i ∧ sign c = sign b ∧ (bytes t).drop i = b :: bytes v := by
  obtain ⟨u, c, v, rfl, rfl, hstands⟩ := Byte.exists_of_ascii h hb
  have hc : c.toNat < 0x80 := by
    by_contra hc
    exact absurd (hstands.beyond (Nat.not_lt.mp hc)) (Nat.not_le.mpr hb)
  have hcode : b = UInt8.ofNat c.toNat := (Byte.eq_code_iff hstands c hc).mpr rfl
  refine ⟨u, c, v, rfl, rfl, (Byte.sign_eq hstands).symm, ?_⟩
  rw [drop_bytes, bytes_cons, Byte.utf8EncodeChar_ascii hc, hcode, List.singleton_append]

/-- A byte that a scanner reacts to is a character of its own. -/
theorem exists_of_look {x : Sign} (h : Loop.look (bytes t) i = some x) (hx : x ≠ .other) :
    ∃ u c v, t = u ++ c :: v ∧ byteSize u = i ∧ sign c = x ∧ ∃ b, sign b = x ∧ (bytes t).drop i = b :: bytes v := by
  obtain ⟨b, hget, rfl⟩ := Option.map_eq_some_iff.mp h
  have hb : b.toNat < 0x80 := by
    by_contra hb
    exact hx (Sign.ofCode_eq_other (Nat.not_lt.mp hb))
  obtain ⟨u, c, v, ht, hu, hc, hdrop⟩ := exists_of_getElem? hget hb
  exact ⟨u, c, v, ht, hu, hc, b, rfl, hdrop⟩

/-- An ASCII word in the bytes of a text is a word of the text. -/
theorem exists_of_beginsWith (y : Char) (word : Text) (hword : Byte.isAscii (y :: word) = true)
    (h : Byte.beginsWith (bytes (y :: word)) ((bytes t).drop i) = true) :
    ∃ u c v, t = u ++ c :: v ∧ byteSize u = i ∧ c.toLower = y ∧ beginsWith (y :: word) (c :: v) = true := by
  have hy := (Byte.isAscii_cons.mp hword).1
  obtain ⟨b, bs, hdrop⟩ : ∃ b bs, (bytes t).drop i = b :: bs := by
    apply List.exists_cons_of_ne_nil
    intro hnil
    rw [hnil, bytes_cons, Byte.utf8EncodeChar_ascii hy, List.singleton_append, Byte.beginsWith_nil] at h
    cases h
  have hlower : Byte.lower b = UInt8.ofNat y.toNat := by
    rw [hdrop, bytes_cons, Byte.utf8EncodeChar_ascii hy, List.singleton_append, Byte.beginsWith_cons,
      Bool.and_eq_true, decide_eq_true_eq] at h
    exact h.1
  have hb : b.toNat < 0x80 := by
    have hnat := congrArg UInt8.toNat hlower
    rw [Byte.toNat_lower, UInt8.toNat_ofNat'] at hnat
    split at hnat <;> omega
  have hget : (bytes t)[i]? = some b := by rw [← List.head?_drop, hdrop]; rfl
  obtain ⟨u, c, v, rfl, rfl, -, -⟩ := exists_of_getElem? hget hb
  rw [drop_bytes, Byte.beginsWith_bytes hword] at h
  have hc := h
  rw [beginsWith_cons, Bool.and_eq_true, decide_eq_true_eq] at hc
  exact ⟨u, c, v, rfl, rfl, hc.1, h⟩

/-- A comment opens where its two first characters stand. -/
theorem opens_comment {c : Char} {cs : Text} (h : Extent.opensComment c cs = true) : Opens .comment (c :: cs) := by
  cases cs with
  | nil => simp [Extent.opensComment] at h
  | cons d ds =>
    obtain ⟨hc, hd⟩ : sign c = .slash ∧ sign d = .star := by simpa [Extent.opensComment] using h
    exact ⟨c, d, ds, rfl, hc, hd⟩

/-- A comment that opens in the bytes opens in the text. -/
theorem exists_opens_comment (h : Loop.opensComment (bytes t) i = true) :
    ∃ u v, t = u ++ v ∧ byteSize u = i ∧ Opens .comment v := by
  have hslash : Loop.look (bytes t) i = some .slash := by
    rw [Loop.opensComment, Bool.and_eq_true, decide_eq_true_eq] at h
    exact h.1
  obtain ⟨u, c, v, rfl, rfl, hc, b, hb, hdrop⟩ := exists_of_look hslash (by decide)
  rw [Loop.opensComment_cons hdrop, Extent.opensComment_bytes (hb.trans hc.symm)] at h
  exact ⟨u, c :: v, rfl, rfl, opens_comment h⟩

/-- A comment ends between two characters. -/
theorem EndsComment.isBoundary (h : EndsComment (bytes t) i) : IsBoundary t i := by
  obtain ⟨start, hopens, hstop⟩ := h
  obtain ⟨u, v, rfl, rfl, hv⟩ := exists_opens_comment hopens
  have hrun := run_of_opens hv u
  rw [run, hstop, Part.some_inj] at hrun
  refine ⟨u ++ v.take (extent .comment v), v.drop (extent .comment v), ?_, ?_⟩
  · rw [List.append_assoc, List.take_append_drop]
  · rw [byteSize_append, hrun]

/-- What is read behind a comment begins between two characters, with the one that is seen there. -/
theorem exists_opens_rule {start : Nat} (hend : EndsComment (bytes t) start)
    (htrivia : Loop.trivia (bytes t) start = .some i) (hnone : Loop.look (bytes t) i ≠ none)
    (hclose : Loop.look (bytes t) i ≠ some .closeBrace) :
    ∃ u v, t = u ++ v ∧ byteSize u = i ∧ Opens .rule v := by
  obtain ⟨u, v, rfl, rfl⟩ := hend.isBoundary
  have hle : byteSize u ≤ (bytes (u ++ v)).length := by
    rw [length_bytes, byteSize_append]
    exact Nat.le_add_right _ _
  rw [Loop.trivia_eq (drop_bytes u v) hle, Part.some_inj, Extent.trivia_bytes, Extent.drop_bytes_take,
    offset_bytes] at htrivia
  have hsplit : u ++ v = (u ++ v.take (Extent.trivia v)) ++ v.drop (Extent.trivia v) := by
    rw [List.append_assoc, List.take_append_drop]
  have hsize : byteSize (u ++ v.take (Extent.trivia v)) = i := by rw [byteSize_append, htrivia]
  refine ⟨_, _, hsplit, hsize, ?_⟩
  have hdrop : (bytes (u ++ v)).drop i = bytes (v.drop (Extent.trivia v)) := by
    rw [hsplit, ← hsize, drop_bytes]
  cases hrest : v.drop (Extent.trivia v) with
  | nil =>
    rw [hrest] at hdrop
    exact absurd (Loop.look_nil hdrop) hnone
  | cons c cs =>
    obtain ⟨b, bs, hbytes, -, hb, -⟩ := Byte.exists_bytes_cons c
    rw [hrest, hbytes] at hdrop
    rw [Loop.look_cons hdrop, hb] at hclose
    exact ⟨c, cs, rfl, fun hc => hclose (congrArg some hc)⟩

/-- **A scanner is called between two characters**, where its construct opens in the text. -/
theorem CalledAt.exists_opens (h : s.CalledAt (bytes t) i) : ∃ u v, t = u ++ v ∧ byteSize u = i ∧ s.Opens v := by
  cases s with
  | comment => exact exists_opens_comment h
  | string =>
    rw [CalledAt, Option.any_eq_true] at h
    obtain ⟨x, hlook, hx⟩ := h
    obtain ⟨u, c, v, rfl, rfl, hc, -⟩ := exists_of_look hlook (by rintro rfl; cases hx)
    exact ⟨u, c :: v, rfl, rfl, c, v, rfl, by rw [hc, hx]⟩
  | url =>
    obtain ⟨u, c, v, ht, hu, -, hv⟩ := exists_of_beginsWith 'u' "rl(".toList (by decide) h
    exact ⟨u, c :: v, ht, hu, hv⟩
  | rule =>
    rcases h with h | ⟨start, hend, htrivia, hnone, hclose⟩
    · obtain ⟨u, c, v, ht, hu, hc, -⟩ := exists_of_beginsWith '@' "font-face".toList (by decide) h
      obtain rfl := eq_of_toLower_eq (by decide) hc
      exact ⟨u, '@' :: v, ht, hu, '@', v, rfl, by decide⟩
    · exact exists_opens_rule hend htrivia hnone hclose
  | block =>
    obtain ⟨u, c, v, rfl, rfl, hc, -⟩ := exists_of_look h (by decide)
    exact ⟨u, c :: v, rfl, rfl, c, v, rfl, hc⟩
  | target =>
    obtain ⟨u, v, ht, hu⟩ := EndsComment.isBoundary h
    exact ⟨u, v, ht, hu, trivial⟩

/-! ### Spans -/

/-- The offset at which a span ends, from its kind and its start. -/
def stopOf (bs : List UInt8) (start : Nat) : SpanKind → Part Nat
  | .comment => Loop.comment bs start
  | .quoted => Loop.string bs start
  | .url => Loop.url bs start
  | .fontFace => Loop.rule bs start
  | .noFlip => (Loop.comment bs start).bind (Loop.target bs)
  | .control => .some (start + 1)

/-- A loop that is called before a construct ends behind it. -/
theorem run_of_extent {before rest : Text} {c : Char} (h : s.Opens (c :: (u ++ rest)))
    (hlen : s.extent (c :: (u ++ rest)) = u.length + 1) :
    s.run (bytes (before ++ c :: (u ++ rest))) (byteSize before) = .some (byteSize before + byteSize (c :: u)) := by
  rw [run_of_opens h, hlen, List.take_succ_cons, List.take_left]

/-- A stretch that is kept ends where the loop for its kind does. -/
theorem stopOf_of_keptAt {joined : Bool} {c : Char} {rest : Text} {kind : SpanKind}
    (h : Piece.keptAt joined c (u ++ rest) = some (kind, u.length)) (before : Text) :
    stopOf (bytes (before ++ c :: (u ++ rest))) (byteSize before) kind
      = .some (byteSize before + byteSize (c :: u)) := by
  rcases Piece.keptAt_cases h with ⟨hopens, hn, hkind, -⟩ | ⟨m, hopens, hm, hkind, -, hn⟩ | ⟨hquote, hkind, hn⟩ |
    ⟨hurl, hkind, hn⟩ | ⟨hface, hkind, hn⟩ | ⟨hcontrol, hkind, hn⟩
  · have hlen : extent .comment (c :: (u ++ rest)) = u.length + 1 := by
      rw [extent, List.drop_succ_cons, List.drop_one, hn]
    rw [hkind]
    exact run_of_extent (opens_comment hopens) hlen
  · -- the target is read from the end of the comment on
    have hlen : extent .comment (c :: (u ++ rest)) = m + 1 := by
      rw [extent, List.drop_succ_cons, List.drop_one, hm]
    have hsource : before ++ (c :: (u ++ rest)) = (before ++ c :: (u ++ rest).take m) ++ (u ++ rest).drop m := by simp
    have htext : (u ++ rest).take m ++ ((u ++ rest).drop m).take (Extent.target ((u ++ rest).drop m)) = u := by
      rw [← List.take_add, ← hn, List.take_left]
    have hcomment := run_of_opens (opens_comment hopens) before
    have htarget := run_of_opens (s := .target) trivial (before ++ c :: (u ++ rest).take m) (v := (u ++ rest).drop m)
    rw [hlen, List.take_succ_cons, ← byteSize_append] at hcomment
    rw [← hsource, ← byteSize_append, List.append_assoc, List.cons_append, extent, htext] at htarget
    rw [hkind, stopOf, ← byteSize_append]
    rw [run] at hcomment
    rw [hcomment, Part.bind_some]
    exact htarget
  · rw [hkind]
    exact run_of_extent (s := .string) ⟨c, _, rfl, hquote⟩ (by rw [hn]; rfl)
  · rw [hkind]
    rw [Piece.opensUrl, Bool.and_eq_true] at hurl
    exact run_of_extent (s := .url) hurl.2 (by rw [hn]; rfl)
  · obtain ⟨rfl, -, -⟩ := Piece.of_opensFontFace hface
    have hlen : extent .rule ('@' :: (u ++ rest)) = u.length + 1 := by
      rw [extent, Extent.rule_unit (by decide), Extent.unit_eq_zero (by decide) (by decide) (by decide), hn]
      simp
    rw [hkind]
    exact run_of_extent (s := .rule) ⟨'@', _, rfl, by decide⟩ hlen
  · rw [hkind, List.length_eq_zero_iff.mp hn]
    have hsize : c.utf8Size = 1 := by
      rw [Marker.isControl, Bool.or_eq_true, decide_eq_true_eq, decide_eq_true_eq] at hcontrol
      rcases hcontrol with rfl | rfl <;> rfl
    rw [stopOf, byteSize_cons, hsize]
    rfl

/-- **The spans of a source end where the loops do.** -/
theorem stopOf_of_mem_spans {span : Span} (h : span ∈ (Masked.ofSource t).spans) :
    stopOf (bytes t) span.start span.kind = .some span.stop := by
  obtain ⟨before, c, u, rest, joined, rfl, hstart, hstop, hkept⟩ := Masked.exists_keptAt h
  rw [hstart, hstop, stopOf_of_keptAt hkept]

/-- **Every call of a scanner has an answer.** Its loop ends, without a count that falls below zero, and the offset
that it answers lies behind its start (not before it, for what a no-flip comment guards), within the bytes and between
two characters: it is where the extent of its construct ends in the text. The spans of a source end there. -/
theorem run_ends (t : Text) :
    (∀ (s : Scanner) (i : Nat), s.CalledAt (bytes t) i →
      ∃ stop, s.run (bytes t) i = .some stop ∧ i ≤ stop ∧ (s ≠ .target → i < stop) ∧ stop ≤ (bytes t).length ∧
        IsBoundary t stop ∧
        ∃ before after, t = before ++ after ∧ byteSize before = i ∧
          stop = i + byteSize (after.take (s.extent after))) ∧
    ∀ span ∈ (Masked.ofSource t).spans, stopOf (bytes t) span.start span.kind = .some span.stop := by
  refine ⟨fun s i h => ?_, fun span => stopOf_of_mem_spans⟩
  obtain ⟨before, after, rfl, rfl, hopens⟩ := h.exists_opens
  have hboundary : IsBoundary (before ++ after) (byteSize before + byteSize (after.take (s.extent after))) := by
    refine ⟨before ++ after.take (s.extent after), after.drop (s.extent after), ?_, byteSize_append _ _⟩
    rw [List.append_assoc, List.take_append_drop]
  refine ⟨_, run_of_opens hopens before, Nat.le_add_right _ _, fun hs => ?_, ?_, hboundary,
    before, after, rfl, rfl, rfl⟩
  · exact Nat.lt_add_of_pos_right (extent_pos hopens hs)
  · rw [length_bytes]
    exact hboundary.le

/-- In the block behind a no-flip comment a brace stands in a string and another one behind a backslash. The loop steps
from a backslash into the middle of `é`, and from the backslash at the end of the url past the end. -/
theorem run_ends_escaped :
    let t := "/*noflip*/é\x7ba:'\x7d\\é';\\\x7d\x7durl(\\".toList
    let bs := bytes t
    (CalledAt bs 10 .target ∧
      ∃ stop, Loop.target bs 10 = .some stop ∧ 10 ≤ stop ∧ stop ≤ bs.length ∧ IsBoundary t stop) ∧
    (CalledAt bs 12 .block ∧
      ∃ stop, Loop.block bs 12 = .some stop ∧ 12 < stop ∧ stop ≤ bs.length ∧ IsBoundary t stop) ∧
    (CalledAt bs 25 .url ∧
      ∃ stop, Loop.url bs 25 = .some stop ∧ 25 < stop ∧ stop ≤ bs.length ∧ IsBoundary t stop) ∧
    Loop.block bs 12 = .some 25 ∧ Loop.url bs 25 = .some 30 ∧ bs.length = 30 := by
  intro t bs
  have htarget : CalledAt bs 10 .target :=
    ⟨0, by decide +kernel, (Loop.comment_eq rfl).trans (congrArg Part.some (by decide +kernel))⟩
  have hblock : CalledAt bs 12 .block := by
    show Loop.look bs 12 = some .openBrace
    decide +kernel
  have hurl : CalledAt bs 25 .url := by
    show Byte.beginsWith (bytes "url(".toList) (bs.drop 25) = true
    decide +kernel
  obtain ⟨e₁, hrun₁, hle, -, hlen₁, hboundary₁, -⟩ := (run_ends t).1 .target 10 htarget
  obtain ⟨e₂, hrun₂, -, hlt₂, hlen₂, hboundary₂, -⟩ := (run_ends t).1 .block 12 hblock
  obtain ⟨e₃, hrun₃, -, hlt₃, hlen₃, hboundary₃, -⟩ := (run_ends t).1 .url 25 hurl
  refine ⟨⟨htarget, e₁, hrun₁, hle, hlen₁, hboundary₁⟩, ⟨hblock, e₂, hrun₂, hlt₂ (by decide), hlen₂, hboundary₂⟩,
    ⟨hurl, e₃, hrun₃, hlt₃ (by decide), hlen₃, hboundary₃⟩, ?_, ?_, by decide +kernel⟩
  · exact (Loop.block_eq rfl (by decide)).trans (congrArg Part.some (by decide +kernel))
  · exact (Loop.fix_urlTurn rfl).trans (congrArg Part.some (by decide +kernel))

end Scanner

end BidiSheet
