import BidiSheet.Proofs.Reading

/-!
# Pieces in the place of others

Whether pieces read depends on little of what follows them, so what follows may be exchanged for something
else that *follows* as well: pieces that begin alike, and read where the others do (`Piece.Follows`). The
relation is closed under whatever stands before (`Piece.Follows.cons`), so the pieces of a text can be
exchanged from its end to its front.

A word may be exchanged behind a *wall*, that is a kept stretch or a character that cannot be the beginning
of anything (`Piece.Follows.word`). What is left to show is that the new word reads if the old one does.

* Words without brackets that end alike may be exchanged (`Piece.reads_soft`).
* Words with closed brackets and without backslashes that read in one place read in another
  (`Piece.solid_of_reads`), if neither place has a url directly behind the word.
-/

namespace BidiSheet

open HasSign (sign)
open Marker (opener closer isControl)

namespace Piece

/-! ### The ends of kept stretches -/

section

variable {joined : Bool} {c : Char} {u v : Text} {kind : SpanKind}

/-- No identifier reaches up to the end of a stretch whose last letter has a sign. -/
theorem endsJoined_of_endsIn {p : Sign → Prop} (hp : ¬ p .other) (h : Extent.EndsIn p u) (c : Char) :
    endsJoined (c :: u) = false := by
  obtain ⟨w, d, rfl, hd⟩ := h
  have hident : isIdent d = false := by
    rcases hi : isIdent d with _ | _
    · rfl
    · rw [sign_of_isIdent hi] at hd
      exact absurd hd hp
  rw [endsJoined, ← List.cons_append, List.getLast?_concat, Option.any_some, hident]

/-- **No identifier reaches up to the end of a kept stretch**, unless the stretch ends at the end of the
source or before a closing brace. -/
theorem endsJoined_of_keptAt (hv : v ≠ []) (hclosed : Extent.startsClosed v = false)
    (h : keptAt joined c (u ++ v) = some (kind, u.length)) : endsJoined (c :: u) = false := by
  have hcomment : ∀ {u v : Text}, v ≠ [] → u.length = Extent.comment (u ++ v).tail + 1 →
      endsJoined (c :: u) = false := by
    intro u v hv hn
    cases u with
    | nil => cases hn
    | cons d u =>
      rw [List.cons_append, List.tail_cons, List.length_cons, Nat.add_right_cancel_iff] at hn
      exact endsJoined_of_endsIn (by simp) ((Extent.endsIn_of_comment hv hn.symm).cons d) c
  obtain ⟨-, hn, -⟩ | ⟨m, -, hm, -, -, hn⟩ | ⟨hquote, -, hn⟩ | ⟨-, -, hn⟩ | ⟨-, -, hn⟩ |
    ⟨hcontrol, -, hn⟩ := keptAt_cases h
  · exact hcomment hv hn
  · obtain ⟨u₁, u₂, rfl, hl⟩ := Extent.exists_split (u := u) (n := m) (by omega)
    rw [List.append_assoc] at hm hn
    rw [← hl, List.drop_left, List.length_append, Nat.add_left_cancel_iff] at hn
    by_cases hu₂ : u₂ = []
    · subst hu₂
      rw [List.append_nil]
      exact hcomment (List.append_ne_nil_of_right_ne_nil [] hv) (hl.trans hm)
    · refine endsJoined_of_endsIn ?_ ((Extent.endsIn_of_target hu₂ hv hclosed hn.symm).append u₁) c
      simp [Extent.isRuleEnd]
  · refine endsJoined_of_endsIn ?_ (Extent.endsIn_of_string hv hn.symm) c
    intro hother
    rw [← hother] at hquote
    cases hquote
  · obtain ⟨u₁, u₂, rfl, hl⟩ := Extent.exists_split (u := u) (n := 3) (by omega)
    rw [List.append_assoc, ← hl, List.drop_left, List.length_append] at hn
    have hurl : Extent.url (u₂ ++ v) = u₂.length := by omega
    exact endsJoined_of_endsIn (by simp) ((Extent.endsIn_of_url hv hurl).append u₁) c
  · refine endsJoined_of_endsIn ?_ (Extent.endsIn_of_rule hv hclosed hn.symm) c
    simp [Extent.isRuleEnd]
  · rw [List.length_eq_zero_iff.mp hn]
    have hc : c = opener ∨ c = closer := by simpa [isControl] using hcontrol
    rcases hc with rfl | rfl <;> decide

/-! ### Windows behind pieces -/

/-- A url needs its bracket. -/
theorem bracket_mem_of_opensUrl {t : Text} (h : opensUrl joined (c :: t) = true) : '(' ∈ t.take 3 := by
  rw [opensUrl, Bool.and_eq_true] at h
  have hlower : lower ((c :: t).take 4) = "url(".toList := of_decide_eq_true h.2
  rw [List.take_succ_cons, lower, List.map_cons] at hlower
  have hmem : '(' ∈ (t.take 3).map Char.toLower := by
    rw [(List.cons.inj hlower).2]
    decide
  obtain ⟨d, hd, hlow⟩ := List.mem_map.mp hmem
  rwa [eq_of_toLower_eq (by decide) hlow] at hd

/-- A kept stretch does not consist of characters of identifiers alone. -/
theorem exists_not_isIdent_of_keptAt (h : keptAt joined c (u ++ v) = some (kind, u.length)) :
    ∃ d ∈ c :: u, isIdent d = false := by
  have hfirst : sign c ≠ .other → ∃ d ∈ c :: u, isIdent d = false := by
    intro hc
    refine ⟨c, List.mem_cons_self, ?_⟩
    rcases hi : isIdent c with _ | _
    · rfl
    · exact absurd (sign_of_isIdent hi) hc
  obtain ⟨hcomment, -⟩ | ⟨m, hcomment, -⟩ | ⟨hquote, -⟩ | ⟨hurl, -, hn⟩ | ⟨hface, -⟩ |
    ⟨hcontrol, -⟩ := keptAt_cases h
  · have hslash : sign c = .slash := by simp_all [Extent.opensComment]
    exact hfirst (by simp [hslash])
  · have hslash : sign c = .slash := by simp_all [Extent.opensComment]
    exact hfirst (by simp [hslash])
  · exact hfirst fun hother => by simp [hother, Sign.isQuote] at hquote
  · have hmem := bracket_mem_of_opensUrl hurl
    rw [List.take_append_of_le_length (by omega)] at hmem
    exact ⟨'(', List.mem_cons_of_mem c (List.mem_of_mem_take hmem), by decide⟩
  · exact ⟨c, List.mem_cons_self, by rw [(of_opensFontFace hface).1]; decide⟩
  · have hc : c = opener ∨ c = closer := by simpa [isControl] using hcontrol
    exact ⟨c, List.mem_cons_self, by rcases hc with rfl | rfl <;> decide⟩

/-- What a kept stretch begins with is no part of an identifier before it, if it is no url. -/
theorem window_of_keptAt {cs : Text} {n : Nat} (h : keptAt joined c cs = some (kind, n))
    (hkind : kind ≠ .url) : isIdent c = false ∧ c ≠ '(' ∧ c ≠ '*' := by
  have hfirst : sign c ≠ .other → sign c ≠ .openRound → sign c ≠ .star →
      isIdent c = false ∧ c ≠ '(' ∧ c ≠ '*' := by
    intro hother hround hstar
    refine ⟨?_, ?_, ?_⟩
    · rcases hi : isIdent c with _ | _
      · rfl
      · exact absurd (sign_of_isIdent hi) hother
    · rintro rfl
      exact hround (by decide)
    · rintro rfl
      exact hstar (by decide)
  obtain ⟨hcomment, -⟩ | ⟨m, hcomment, -⟩ | ⟨hquote, -⟩ | ⟨-, hurl, -⟩ | ⟨hface, -⟩ |
    ⟨hcontrol, -⟩ := keptAt_cases h
  · have hslash : sign c = .slash := by simp_all [Extent.opensComment]
    exact hfirst (by simp [hslash]) (by simp [hslash]) (by simp [hslash])
  · have hslash : sign c = .slash := by simp_all [Extent.opensComment]
    exact hfirst (by simp [hslash]) (by simp [hslash]) (by simp [hslash])
  · have hq : sign c = .doubleQuote ∨ sign c = .singleQuote := by simpa [Sign.isQuote] using hquote
    rcases hq with hq | hq
    · exact hfirst (by simp [hq]) (by simp [hq]) (by simp [hq])
    · exact hfirst (by simp [hq]) (by simp [hq]) (by simp [hq])
  · exact absurd hurl hkind
  · rw [(of_opensFontFace hface).1]
    decide
  · have hc : c = opener ∨ c = closer := by simpa [isControl] using hcontrol
    rcases hc with rfl | rfl <;> decide

end

/-- Windows that are the same stay so behind one more character. -/
theorem window_cons_congr {s t : Text} (h : window s = window t) (c : Char) :
    window (c :: s) = window (c :: t) := by
  rw [window, window, h]

/-- The window does not reach into a text of which it sees nothing. -/
theorem window_append_of_nil {t : Text} (h : window t = []) (u : Text) : window (u ++ t) = window u := by
  induction u with
  | nil => rw [List.nil_append, h, window]
  | cons c u ih => rw [List.cons_append, window, window, ih]

/-- The window is a part of the text. -/
theorem mem_of_mem_window {c : Char} {t : Text} (h : c ∈ window t) : c ∈ t := by
  induction t with
  | nil => exact h
  | cons d t ih =>
    rw [window] at h
    split at h
    · rcases List.mem_cons.mp h with rfl | h
      · exact List.mem_cons_self
      · exact List.mem_cons_of_mem d (ih h)
    · split at h
      · rw [List.mem_singleton.mp h]
        exact List.mem_cons_self
      · cases h

/-- Where no bracket is in sight, no url begins. -/
theorem opensUrl_of_not_mem {joined : Bool} {c : Char} {t : Text} (h : '(' ∉ window t) :
    opensUrl joined (c :: t) = false := by
  rcases hu : opensUrl joined (c :: t) with _ | _
  · rfl
  · rw [← opensUrl_window] at hu
    exact absurd (List.mem_of_mem_take (bracket_mem_of_opensUrl hu)) h

/-! ### Reading behind a piece -/

/-- Whether an identifier reaches up to the end of a piece. -/
def isJoined : Piece → Bool
  | .plain c => isIdent c
  | .kept _ t => endsJoined t

/-- Pieces at the end of pieces that read do so themselves, unless a backslash makes the first of them
plain. -/
theorem Reads.of_append {joined : Bool} {xs ps : List Piece} (h : Reads joined (xs ++ ps)) :
    (∃ joined', Reads joined' ps) ∨ ∃ c ps', ps = .plain c :: ps' ∧ Reads (isIdent c) ps' := by
  generalize hqs : xs ++ ps = qs at h
  induction h generalizing xs with
  | nil =>
    rw [(List.append_eq_nil_iff.mp hqs).2]
    exact .inl ⟨false, .nil⟩
  | kept h rest ih =>
    cases xs with
    | nil =>
      subst hqs
      exact .inl ⟨_, .kept h rest⟩
    | cons x xs => exact ih (List.cons.inj hqs).2
  | plain hc h rest ih =>
    cases xs with
    | nil =>
      subst hqs
      exact .inl ⟨_, .plain hc h rest⟩
    | cons x xs => exact ih (List.cons.inj hqs).2
  | @stray joined =>
    cases xs with
    | nil =>
      subst hqs
      exact .inl ⟨joined, .stray⟩
    | cons x xs =>
      rw [(List.append_eq_nil_iff.mp (List.cons.inj hqs).2).2]
      exact .inl ⟨false, .nil⟩
  | @escape joined d ps' h rest ih =>
    cases xs with
    | nil =>
      subst hqs
      exact .inl ⟨joined, .escape h rest⟩
    | cons x xs =>
      cases xs with
      | nil => exact .inr ⟨d, ps', (List.cons.inj hqs).2, rest⟩
      | cons y xs => exact ih (List.cons.inj (List.cons.inj hqs).2).2
  | @control joined d ps' h rest ih =>
    cases xs with
    | nil =>
      subst hqs
      exact .inl ⟨joined, .control h rest⟩
    | cons x xs => exact ih (List.cons.inj hqs).2

/-- What stands behind a piece reads, unless the piece is a backslash. -/
theorem Reads.behind {joined : Bool} {p : Piece} {xs ps : List Piece}
    (h : Reads joined (xs ++ p :: ps)) (hp : p ≠ .plain '\\') : Reads p.isJoined ps := by
  obtain ⟨joined', hps⟩ | ⟨c, ps', heq, hps⟩ := h.of_append
  · cases hps with
    | kept _ rest => exact rest
    | plain _ _ rest => exact rest
    | stray | escape | control => exact absurd rfl hp
  · cases heq
    exact hps

/-- Pieces that begin alike have texts that begin alike. -/
theorem Reads.head?_source {joined : Bool} {ps qs : List Piece} (h : Reads joined ps)
    (hhead : qs.head? = ps.head?) : (source qs).head? = (source ps).head? := by
  cases h with
  | nil => rw [List.head?_eq_none_iff.mp hhead]
  | kept | plain | stray | escape | control =>
    obtain ⟨qs', rfl⟩ := List.head?_eq_some_iff.mp hhead
    rfl

/-! ### Pieces that follow in the place of others -/

/-- The pieces `qs` may stand wherever `ps` do: they begin with the same piece, and read where `ps` do. -/
structure Follows (ps qs : List Piece) : Prop where
  /-- The first piece is the same. -/
  head : qs.head? = ps.head?
  /-- A no-flip comment that guards nothing in `ps` guards nothing in `qs`. -/
  idle : isIdle ps = true → isIdle qs = true
  /-- Where `ps` read, `qs` read and show the same window. -/
  reads : ∀ joined, Reads joined ps → Reads joined qs ∧ window (source qs) = window (source ps)
  /-- The same holds behind a first character that a backslash makes plain. -/
  escaped : ∀ c ps', ps = .plain c :: ps' → Reads (isIdent c) ps' →
    ∃ qs', qs = .plain c :: qs' ∧ Reads (isIdent c) qs'

namespace Follows

variable {ps qs : List Piece}

theorem nil : Follows [] [] :=
  ⟨rfl, id, fun _ h => ⟨h, rfl⟩, fun _ _ h => by cases h⟩

theorem eq_nil (h : Follows ps qs) (hps : ps = []) : qs = [] := by
  rw [← List.head?_eq_none_iff, h.head, hps]
  rfl

/-- One more piece in front does not make idle pieces busy. -/
theorem isIdle_cons (h : isIdle ps = true → isIdle qs = true) (p : Piece)
    (hp : isIdle (p :: ps) = true) : isIdle (p :: qs) = true := by
  rcases p with c | ⟨kind, t⟩
  · rw [isIdle, Bool.or_eq_true, Bool.and_eq_true] at hp ⊢
    exact hp.imp_right fun hc => ⟨hc.1, h hc.2⟩
  · cases kind with
    | comment => exact h hp
    | noFlip =>
      rw [isIdle, Bool.and_eq_true] at hp ⊢
      exact ⟨hp.1, h hp.2⟩
    | quoted | url | fontFace | control => cases hp

/-- **What stands before may be anything.** -/
theorem cons (h : Follows ps qs) (p : Piece) : Follows (p :: ps) (p :: qs) := by
  refine ⟨rfl, isIdle_cons h.idle p, ?_, ?_⟩
  · intro joined hp
    cases hp with
    | @kept _ kind c u _ hk rest =>
      obtain ⟨hqs, -⟩ := h.reads _ rest
      obtain ⟨d, hd, hident⟩ := exists_not_isIdent_of_keptAt hk
      refine ⟨Reads.kept_congr hk rest hqs h.eq_nil ?_ h.idle, ?_⟩
      · rw [h.head]
        exact id
      · rw [source_kept, source_kept, window_append hd hident, window_append hd hident]
    | @plain _ c _ hc hk rest =>
      obtain ⟨hqs, hwindow⟩ := h.reads _ rest
      refine ⟨.plain hc (keptAt_none_congr hwindow ?_ hk) hqs, window_cons_congr hwindow c⟩
      rw [← (keptAt_eq_none_iff.mp hk).1]
      exact Extent.opensComment_congr (rest.head?_source h.head) c
    | stray =>
      rw [h.eq_nil rfl]
      exact ⟨.stray, rfl⟩
    | @escape _ d ps' hd rest =>
      obtain ⟨qs', rfl, hqs⟩ := h.escaped d ps' rfl rest
      exact ⟨.escape hd hqs, rfl⟩
    | @control _ d ps' hd rest =>
      obtain ⟨hqs, -⟩ := h.reads _ rest
      obtain ⟨qs', rfl⟩ := List.head?_eq_some_iff.mp h.head
      exact ⟨.control hd hqs, rfl⟩
  · intro c ps' heq hrest
    cases heq
    exact ⟨qs, rfl, (h.reads _ hrest).1⟩

/-- The same pieces may be put before both. -/
theorem append (h : Follows ps qs) (xs : List Piece) : Follows (xs ++ ps) (xs ++ qs) := by
  induction xs with
  | nil => exact h
  | cons x xs ih => exact ih.cons x

end Follows

/-! ### Words behind walls -/

/-- Whether nothing that begins with this piece goes on behind it: it is kept, or neither part of an
identifier nor a character before which one would matter. -/
def isWall : Piece → Bool
  | .plain c => !isIdent c && c ≠ '(' && c ≠ '@' && c ≠ '\\'
  | .kept _ _ => true

/-- Which plain characters are walls. -/
theorem isWall_plain {c : Char} :
    isWall (.plain c) = true ↔ isIdent c = false ∧ c ≠ '(' ∧ c ≠ '@' ∧ c ≠ '\\' := by
  simp [isWall, and_assoc]

/-- Pieces that begin like a word. -/
def StartsWord (ps : List Piece) : Prop :=
  ∃ c ps', ps = .plain c :: ps' ∧ isBlank c = false ∧ c ≠ '\x7d' ∧ c ≠ '*'

namespace StartsWord

variable {ps : List Piece}

/-- What follows does not matter to the word in front. -/
theorem append (h : StartsWord ps) (qs : List Piece) : StartsWord (ps ++ qs) := by
  obtain ⟨c, ps', rfl, hc⟩ := h
  exact ⟨c, ps' ++ qs, rfl, hc⟩

/-- A word is something to guard. -/
theorem isIdle_eq_false (h : StartsWord ps) : isIdle ps = false := by
  obtain ⟨c, ps', rfl, hblank, hbrace, -⟩ := h
  simp [isIdle, hblank, hbrace]

theorem source_ne_nil (h : StartsWord ps) : source ps ≠ [] := by
  obtain ⟨c, ps', rfl, -⟩ := h
  simp

/-- A word does not begin with a closing brace. -/
theorem not_startsClosed (h : StartsWord ps) : Extent.startsClosed (source ps) = false := by
  obtain ⟨c, ps', rfl, -, hbrace, -⟩ := h
  simp [Extent.startsClosed, sign_eq_closeBrace_iff, hbrace]

/-- A word makes no comment of the character before it. -/
theorem not_opensComment (h : StartsWord ps) (d : Char) : Extent.opensComment d (source ps) = false := by
  obtain ⟨c, ps', rfl, -, -, hstar⟩ := h
  simp [Extent.opensComment, sign_eq_star_iff, hstar]

end StartsWord

/-- Behind a wall, a word reads as it would alone. -/
theorem Reads.behind_wall {joined : Bool} {p : Piece} {xs ps : List Piece}
    (h : Reads joined (xs ++ p :: ps)) (hp : isWall p = true) (hps : StartsWord ps) :
    Reads false ps := by
  obtain ⟨joined', hread⟩ | ⟨c, ps', heq, hread⟩ := h.of_append
  · cases hread with
    | kept hk rest =>
      rwa [endsJoined_of_keptAt hps.source_ne_nil hps.not_startsClosed hk] at rest
    | plain _ _ rest => rwa [(isWall_plain.mp hp).1] at rest
    | stray | escape | control => exact absurd rfl (isWall_plain.mp hp).2.2.2
  · cases heq
    rwa [(isWall_plain.mp hp).1] at hread

/-- **Behind a wall, a word may be exchanged** for another one that reads if it does. -/
theorem Follows.word {p : Piece} {ps qs : List Piece} (hp : isWall p = true) (hps : StartsWord ps)
    (hqs : StartsWord qs) (hstep : Reads false ps → Reads false qs) : Follows (p :: ps) (p :: qs) := by
  have hidle : isIdle ps = true → isIdle qs = true := by
    rw [hps.isIdle_eq_false]
    intro h
    cases h
  refine ⟨rfl, isIdle_cons hidle p, ?_, ?_⟩
  · intro joined h
    cases h with
    | @kept _ kind c u _ hk rest =>
      have hjoined := endsJoined_of_keptAt hps.source_ne_nil hps.not_startsClosed hk
      obtain ⟨d, hd, hident⟩ := exists_not_isIdent_of_keptAt hk
      have hrest := rest
      rw [hjoined] at hrest
      refine ⟨Reads.kept_congr hk rest ?_ ?_ ?_ hidle, ?_⟩
      · rw [hjoined]
        exact hstep hrest
      · rintro rfl
        exact absurd rfl hps.source_ne_nil
      · intro hhead
        obtain ⟨c, ps', rfl, -, hbrace, -⟩ := hps
        exact absurd (Piece.plain.inj (Option.some.inj hhead)) hbrace
      · rw [source_kept, source_kept, window_append hd hident, window_append hd hident]
    | @plain _ c _ hc hk rest =>
      obtain ⟨hident, hround, hat, -⟩ := isWall_plain.mp hp
      obtain ⟨-, hquote, -, -, hcontrol⟩ := keptAt_eq_none_iff.mp hk
      rw [hident] at rest
      refine ⟨.plain hc ?_ ?_, ?_⟩
      · exact keptAt_of_not_isIdent joined hident hat hquote hcontrol (hqs.not_opensComment c)
      · rw [hident]
        exact hstep rest
      · rw [source_plain, source_plain, window_stop hident hround, window_stop hident hround]
    | stray | escape | control => exact absurd rfl (isWall_plain.mp hp).2.2.2
  · intro c ps' heq hrest
    cases heq
    rw [(isWall_plain.mp hp).1] at hrest ⊢
    exact ⟨qs, rfl, hstep hrest⟩

/-! ### Words without brackets -/

/-- The characters of keywords, quantities and names. -/
def isSoft (c : Char) : Bool := isIdent c || c = '+' || c = '.' || c = '%'

/-- Which characters are soft. -/
theorem isSoft_cases {c : Char} (h : isSoft c = true) : isIdent c = true ∨ c = '+' ∨ c = '.' ∨ c = '%' := by
  simpa [isSoft, or_assoc] using h

/-- Soft characters are told from others. -/
theorem ne_of_isSoft {c d : Char} (h : isSoft c = true) (hd : isSoft d = false) : c ≠ d := by
  rintro rfl
  rw [h] at hd
  cases hd

/-- Nothing is kept that begins with a character of a word, unless a url does. -/
theorem keptAt_soft {joined : Bool} {c : Char} {t : Text} (h : isSoft c = true)
    (hurl : opensUrl joined (c :: t) = false) : keptAt joined c t = none := by
  have hsign : sign c = .other := by
    rcases isSoft_cases h with hc | rfl | rfl | rfl
    · exact sign_of_isIdent hc
    · decide
    · decide
    · decide
  have hcontrol : isControl c = false := by
    have h1 : c ≠ opener := ne_of_isSoft h (by decide)
    have h2 : c ≠ closer := ne_of_isSoft h (by decide)
    simp [isControl, h1, h2]
  refine keptAt_eq_none_iff.mpr ⟨opensComment_of_sign (by simp [hsign]) t, by simp [hsign, Sign.isQuote],
    hurl, ?_, hcontrol⟩
  rcases hf : opensFontFace (c :: t) with _ | _
  · rfl
  · exact absurd (of_opensFontFace hf).1 (ne_of_isSoft h (by decide))

/-- What may stand directly behind a word: nothing that would go on with it. -/
def isStop : List Piece → Bool
  | [] => true
  | .plain c :: _ => !isIdent c && c ≠ '(' && c ≠ '*'
  | .kept _ _ :: _ => true

/-- What may stand directly behind any word. No identifier may reach up to a url. -/
def isFence : List Piece → Bool
  | .kept .url _ :: _ => false
  | ps => isStop ps

/-- Which plain characters are stops. -/
theorem isStop_plain {c : Char} {ps : List Piece} :
    isStop (.plain c :: ps) = true ↔ isIdent c = false ∧ c ≠ '(' ∧ c ≠ '*' := by
  simp [isStop, and_assoc]

/-- A fence stops what comes before it. -/
theorem isStop_of_isFence {ps : List Piece} (h : isFence ps = true) : isStop ps = true := by
  unfold isFence at h
  split at h
  · cases h
  · exact h

/-- No url is a fence. -/
theorem isFence_kept {kind : SpanKind} {t : Text} {ps : List Piece}
    (h : isFence (.kept kind t :: ps) = true) : kind ≠ .url := by
  rintro rfl
  cases h

/-- Whether pieces are a fence is seen from the first of them. -/
theorem isFence_congr {ps qs : List Piece} (h : qs.head? = ps.head?) : isFence qs = isFence ps := by
  cases ps with
  | nil => rw [List.head?_eq_none_iff.mp h]
  | cons p ps =>
    obtain ⟨qs', rfl⟩ := List.head?_eq_some_iff.mp h
    rcases p with c | ⟨kind, t⟩
    · rfl
    · cases kind <;> rfl

section

variable {joined : Bool} {ps : List Piece}

/-- Behind an identifier no url begins, so anything that may stand behind a word is a fence there. -/
theorem isFence_of_reads (h : Reads true ps) (hstop : isStop ps = true) : isFence ps = true := by
  cases h with
  | @kept _ kind c u ps hk rest =>
    cases kind with
    | url =>
      obtain ⟨-, -, hkind, -⟩ | ⟨m, -, -, hkind, -⟩ | ⟨-, hkind, -⟩ | ⟨hurl, -⟩ | ⟨-, hkind, -⟩ |
        ⟨-, hkind, -⟩ := keptAt_cases hk
      · cases hkind
      · cases hkind
      · cases hkind
      · simp [opensUrl] at hurl
      · cases hkind
      · cases hkind
    | comment | quoted | fontFace | noFlip | control => rfl
  | nil | plain | stray | escape | control => exact hstop

/-- Nothing is in sight behind a fence. -/
theorem window_of_isFence (h : Reads joined ps) (hfence : isFence ps = true) :
    window (source ps) = [] ∧ (source ps).head? ≠ some '*' := by
  have hplain : ∀ {c : Char} {t : Text}, isIdent c = false → c ≠ '(' → c ≠ '*' →
      window (c :: t) = [] ∧ (c :: t).head? ≠ some '*' := by
    intro c t h1 h2 h3
    refine ⟨window_stop h1 h2 t, ?_⟩
    rw [List.head?_cons]
    exact fun heq => h3 (Option.some.inj heq)
  have hstop := isStop_of_isFence hfence
  cases h with
  | nil => exact ⟨rfl, by simp⟩
  | @kept _ kind c u ps hk rest =>
    obtain ⟨h1, h2, h3⟩ := window_of_keptAt hk (isFence_kept hfence)
    exact hplain h1 h2 h3
  | plain =>
    obtain ⟨h1, h2, h3⟩ := isStop_plain.mp hstop
    exact hplain h1 h2 h3
  | stray => exact hplain (by decide) (by decide) (by decide)
  | escape => exact hplain (by decide) (by decide) (by decide)
  | control => exact hplain (by decide) (by decide) (by decide)

/-- An identifier before it matters only to a character of an identifier. -/
theorem keptAt_joined {c : Char} (h : isIdent c = false) (joined joined' : Bool) (t : Text) :
    keptAt joined c t = keptAt joined' c t := by
  have hurl : ∀ b, opensUrl b (c :: t) = false := by
    intro b
    rcases hu : opensUrl b (c :: t) with _ | _
    · rfl
    · rw [isIdent_of_opensUrl hu] at h
      cases h
  rw [keptAt, keptAt, hurl, hurl]

/-- A fence reads whether an identifier reaches up to it or not. -/
theorem Reads.of_isFence (h : Reads joined ps) (hfence : isFence ps = true) (joined' : Bool) :
    Reads joined' ps := by
  cases h with
  | nil => exact .nil
  | @kept _ kind c u ps hk rest =>
    obtain ⟨hident, -⟩ := window_of_keptAt hk (isFence_kept hfence)
    refine .kept ?_ rest
    rwa [keptAt_joined hident joined' joined]
  | @plain _ c ps hc hk rest =>
    obtain ⟨hident, -⟩ := isStop_plain.mp (isStop_of_isFence hfence)
    refine .plain hc ?_ rest
    rwa [keptAt_joined hident joined' joined]
  | stray => exact .stray
  | escape h rest => exact .escape h rest
  | control h rest => exact .control h rest

end

/-- A text, piece by piece. -/
def plains (t : Text) : List Piece := t.map .plain

/-- Plain pieces of a text have that text. -/
@[simp] theorem source_plains (t : Text) : source (plains t) = t := by
  induction t with
  | nil => rfl
  | cons c t ih => exact congrArg (c :: ·) ih

/-- A word without brackets reads before a fence. -/
theorem reads_plains {w : Text} {qs : List Piece} (hw : ∀ c ∈ w, isSoft c = true)
    (hqs : Reads false qs) (hfence : isFence qs = true) (joined : Bool) :
    Reads joined (plains w ++ qs) := by
  induction w generalizing joined with
  | nil => exact hqs.of_isFence hfence joined
  | cons c w ih =>
    have hrest : ∀ d ∈ w, isSoft d = true := fun d hd => hw d (List.mem_cons_of_mem c hd)
    have hc := hw c List.mem_cons_self
    refine .plain (ne_of_isSoft hc (by decide)) (keptAt_soft hc ?_) (ih hrest _)
    apply opensUrl_of_not_mem
    intro hmem
    have hmem' : '(' ∈ window (source (plains w ++ qs)) := hmem
    rw [source_append, source_plains, window_append_of_nil (window_of_isFence hqs hfence).1] at hmem'
    exact ne_of_isSoft (hrest _ (mem_of_mem_window hmem')) (by decide) rfl

/-- **A word without brackets may be exchanged for another**, if both end in a character of an
identifier. -/
theorem reads_soft {w w' : Text} {ps qs : List Piece} {u : Text} {c : Char} (hu : w = u ++ [c])
    (hc : isIdent c = true) (hw' : ∀ d ∈ w', isSoft d = true) (hstop : isStop ps = true)
    (h : Follows ps qs) (hps : Reads false (plains w ++ ps)) : Reads false (plains w' ++ qs) := by
  have hbehind : Reads true ps := by
    rw [hu, plains, List.map_append, List.append_assoc] at hps
    have hne : Piece.plain c ≠ .plain '\\' := by
      intro heq
      rw [Piece.plain.inj heq] at hc
      cases hc
    have hrest : Reads (isIdent c) ps := hps.behind hne
    rwa [hc] at hrest
  have hfence : isFence qs = true := by
    rw [isFence_congr h.head]
    exact isFence_of_reads hbehind hstop
  exact reads_plains hw' ((h.reads _ hbehind).1.of_isFence hfence false) hfence false

/-! ### Words with closed brackets -/

/-- Pieces that read before every fence. -/
def Solid (ws : List Piece) : Prop :=
  ∀ qs, isFence qs = true → Reads false qs → Reads false (ws ++ qs)

/-- What stands behind a plain character may be exchanged, if it is a fence. -/
theorem Follows.fence {x : Char} {ps qs : List Piece} (hx : isBlank x = false) (hxs : x ≠ '\\')
    (hps : isFence ps = true) (hfence : isFence qs = true) (hqs : Reads false qs) :
    Follows (.plain x :: ps) (.plain x :: qs) := by
  refine ⟨rfl, by simp [isIdle, hx], ?_, ?_⟩
  · intro joined h
    cases h with
    | plain hc hk rest =>
      obtain ⟨hwindow, -⟩ := window_of_isFence rest hps
      obtain ⟨hwindow', hstar⟩ := window_of_isFence hqs hfence
      have hsame : window (source qs) = window (source ps) := hwindow'.trans hwindow.symm
      refine ⟨.plain hc (keptAt_none_congr hsame ?_ hk) (hqs.of_isFence hfence _),
        window_cons_congr hsame x⟩
      have hno : (source qs).head?.any (sign · = .star) = false := by
        cases hd : (source qs).head? with
        | none => rfl
        | some d =>
          rw [hd] at hstar
          simpa [sign_eq_star_iff] using hstar
      rw [Extent.opensComment, hno, Bool.and_false]
    | stray | escape | control => exact absurd rfl hxs
  · intro c ps' heq hrest
    cases heq
    exact ⟨qs, rfl, hqs.of_isFence hfence _⟩

/-- **Pieces that read before one fence read before every other**, if they end in a plain character. Whatever
is kept among them is followed by that character. -/
theorem solid_of_reads {ws ps : List Piece} {x : Char} (hx : isBlank x = false) (hxs : x ≠ '\\')
    (hps : isFence ps = true) (h : Reads false (ws ++ .plain x :: ps)) : Solid (ws ++ [.plain x]) := by
  intro qs hfence hqs
  rw [List.append_assoc]
  exact (((Follows.fence hx hxs hps hfence hqs).append ws).reads false h).1

end Piece

end BidiSheet
