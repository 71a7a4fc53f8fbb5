import BidiSheet.Piece
import BidiSheet.Proofs.Extent
import Mathlib

/-!
# What decides where pieces begin and end

Whether a character is plain is decided by the character, by whether an identifier reaches up to it, and
by a few characters behind it: the star of a comment, or the rest of `url(` or of `@font-face`. The latter
all belong to the *window*, the identifier behind the character with the bracket that may follow it
(`Piece.keptAt_none_congr`).

A kept stretch that ends before the source does ends there whatever follows, but for the brace that may
have ended it, and but for what decides that a no-flip comment guards nothing (`Piece.keptAt_congr`).
-/

namespace BidiSheet

open HasSign (sign)
open Marker (opener closer isControl)

/-! ### Characters -/

/-- The characters that a scanner reacts to. -/
def signed : Text := "\t\n\x0c\r \"'()*/;[\\]\x7b\x7d".toList

/-- Only a few characters have a sign. -/
theorem sign_eq_other_or_mem (c : Char) : sign c = .other ∨ c ∈ signed := by
  have hc : ∀ d : Char, c.toNat = d.toNat → d ∈ signed → c ∈ signed := by
    intro d hcd hd
    rwa [Char.toNat_inj.mp hcd]
  show Sign.ofCode c.toNat = .other ∨ c ∈ signed
  unfold Sign.ofCode
  split
  all_goals first
    | exact .inl rfl
    | exact .inr (hc '\t' ‹_› (by decide))
    | exact .inr (hc '\n' ‹_› (by decide))
    | exact .inr (hc '\x0c' ‹_› (by decide))
    | exact .inr (hc '\r' ‹_› (by decide))
    | exact .inr (hc ' ' ‹_› (by decide))
    | exact .inr (hc '"' ‹_› (by decide))
    | exact .inr (hc '\'' ‹_› (by decide))
    | exact .inr (hc '(' ‹_› (by decide))
    | exact .inr (hc ')' ‹_› (by decide))
    | exact .inr (hc '*' ‹_› (by decide))
    | exact .inr (hc '/' ‹_› (by decide))
    | exact .inr (hc ';' ‹_› (by decide))
    | exact .inr (hc '[' ‹_› (by decide))
    | exact .inr (hc '\\' ‹_› (by decide))
    | exact .inr (hc ']' ‹_› (by decide))
    | exact .inr (hc '\x7b' ‹_› (by decide))
    | exact .inr (hc '\x7d' ‹_› (by decide))

/-- No character of an identifier means anything to a scanner. -/
theorem sign_of_isIdent {c : Char} (h : isIdent c = true) : sign c = .other := by
  have hsigned : signed.all (fun d => !isIdent d) = true := by decide
  rcases sign_eq_other_or_mem c with hother | hmem
  · exact hother
  · have hc : (!isIdent c) = true := List.all_eq_true.mp hsigned c hmem
    rw [h] at hc
    cases hc

/-- A character with a sign belongs to no identifier. -/
theorem not_isIdent_of_sign {c : Char} (h : sign c ≠ .other) : isIdent c = false := by
  rcases hi : isIdent c with _ | _
  · rfl
  · exact absurd (sign_of_isIdent hi) h

/-- Letters belong to identifiers. -/
theorem isIdent_of_isAlpha {c : Char} (h : c.isAlpha = true) : isIdent c = true := by
  simp [isIdent, Char.isAlphanum, h]

/-- A character that is another one in lower case is a letter, or is already in lower case. -/
theorem isAlpha_or_toLower_eq (c : Char) : c.isAlpha = true ∨ c.toLower = c := by
  rcases hc : c.isUpper with _ | _
  · exact .inr (Char.toLower_eq_of_not_isUpper (by simp [hc]))
  · exact .inl (by simp [Char.isAlpha, hc])

/-- A character that is no letter is the lower case of itself alone. -/
theorem eq_of_toLower_eq {c y : Char} (hy : y.isAlpha = false) (h : c.toLower = y) : c = y := by
  rcases isAlpha_or_toLower_eq c with hc | hc
  · rw [← Char.isAlpha_toLower_eq_isAlpha, h, hy] at hc
    cases hc
  · rwa [hc] at h

/-- Whether a character belongs to an identifier does not depend on its case. -/
theorem isIdent_of_toLower {c : Char} (h : isIdent c.toLower = true) : isIdent c = true := by
  rcases isAlpha_or_toLower_eq c with hc | hc
  · exact isIdent_of_isAlpha hc
  · rwa [hc] at h

/-! ### Reading a word at the head of a text -/

/-- A text begins with a word if it does so letter by letter. -/
theorem beginsWith_cons (y : Char) (word : Text) (c : Char) (t : Text) :
    beginsWith (y :: word) (c :: t) = (decide (c.toLower = y) && beginsWith word t) := by
  simp [beginsWith, lower]

theorem beginsWith_nil (y : Char) (word : Text) : beginsWith (y :: word) [] = false := by
  simp [beginsWith, lower]

/-- A last character that is no letter can be looked for on its own. -/
theorem beginsWith_append_singleton {y : Char} (hy : y.isAlpha = false) (word t : Text) :
    beginsWith (word ++ [y]) t =
      (beginsWith word t && (t.drop word.length).head?.any (· = y)) := by
  induction word generalizing t with
  | nil =>
    cases t with
    | nil => rfl
    | cons c t =>
      have hiff : c.toLower = y ↔ c = y := by
        constructor
        · exact eq_of_toLower_eq hy
        · rintro rfl
          rcases isAlpha_or_toLower_eq c with hc | hc
          · rw [hy] at hc
            cases hc
          · exact hc
      rw [List.nil_append, beginsWith_cons]
      simp [beginsWith, lower, hiff]
  | cons z word ih =>
    cases t with
    | nil => simp [beginsWith, lower]
    | cons c t => rw [List.cons_append, beginsWith_cons, beginsWith_cons, ih, Bool.and_assoc,
        List.length_cons, List.drop_succ_cons]

/-- A word is read off the text that is as long as the word is. -/
theorem beginsWith_append {word u : Text} (h : word.length ≤ u.length) (v : Text) :
    beginsWith word (u ++ v) = beginsWith word u := by
  rw [beginsWith, beginsWith, List.take_append_of_le_length h]

/-- A text that begins with a word is at least as long. -/
theorem length_le_of_beginsWith {word t : Text} (h : beginsWith word t = true) :
    word.length ≤ t.length := by
  have heq : lower (t.take word.length) = word := by simpa [beginsWith] using h
  have hlen := congrArg List.length heq
  simp only [lower, List.length_map, List.length_take] at hlen
  omega

namespace Piece

/-! ### Windows -/

/-- The characters ahead that may decide that a url or a font face begins: an identifier, with an opening
bracket where one follows it. -/
def window : Text → Text
  | [] => []
  | c :: t => if isIdent c then c :: window t else if c = '(' then [c] else []

/-- The window goes on over an identifier. -/
theorem window_ident {c : Char} (h : isIdent c = true) (t : Text) :
    window (c :: t) = c :: window t := by
  rw [window, if_pos h]

/-- An opening bracket is the last character of the window. -/
theorem window_bracket (t : Text) : window ('(' :: t) = ['('] := by
  rw [window, if_neg (by decide), if_pos rfl]

/-- Any other character is outside the window. -/
theorem window_stop {c : Char} (h : isIdent c = false) (hb : c ≠ '(') (t : Text) :
    window (c :: t) = [] := by
  rw [window, if_neg (by simp [h]), if_neg hb]

/-- The window does not reach beyond a character that is none of its own. -/
theorem window_append {c : Char} {u : Text} (hc : c ∈ u) (h : isIdent c = false) (v : Text) :
    window (u ++ v) = window u := by
  induction u with
  | nil => cases hc
  | cons d u ih =>
    rcases hd : isIdent d with _ | _
    · by_cases hb : d = '('
      · rw [hb, List.cons_append, window_bracket, window_bracket]
      · rw [List.cons_append, window_stop hd hb, window_stop hd hb]
    · have hne : c ≠ d := by
        rintro rfl
        rw [h] at hd
        cases hd
      rw [List.cons_append, window_ident hd, window_ident hd, ih (List.mem_of_ne_of_mem hne hc)]

/-- A word of an identifier can be looked for in the window. -/
theorem beginsWith_window {word : Text} (h : ∀ y ∈ word, isIdent y = true) (t : Text) :
    beginsWith word (window t) = beginsWith word t := by
  induction word generalizing t with
  | nil => simp [beginsWith, lower]
  | cons y word ih =>
    cases t with
    | nil => rfl
    | cons c t =>
      rcases hc : isIdent c with _ | _
      · -- no character outside the identifier is one of the word, whatever its case
        have hne : c.toLower ≠ y := by
          rintro rfl
          rw [isIdent_of_toLower (h _ List.mem_cons_self)] at hc
          cases hc
        by_cases hb : c = '('
        · rw [hb, window_bracket, ← hb, beginsWith_cons, beginsWith_cons, decide_eq_false hne,
            Bool.false_and, Bool.false_and]
        · rw [window_stop hc hb, beginsWith_nil, beginsWith_cons, decide_eq_false hne,
            Bool.false_and]
      · rw [window_ident hc, beginsWith_cons, beginsWith_cons,
          ih (fun y hy => h y (List.mem_cons_of_mem _ hy))]

/-- What follows a word that is read in a window is read in a window. -/
theorem drop_window {word t : Text} (h : ∀ y ∈ word, isIdent y = true)
    (ht : beginsWith word t = true) :
    (window t).drop word.length = window (t.drop word.length) := by
  induction word generalizing t with
  | nil => rfl
  | cons y word ih =>
    cases t with
    | nil => rfl
    | cons c t =>
      rw [beginsWith_cons, Bool.and_eq_true, decide_eq_true_eq] at ht
      obtain ⟨rfl, ht⟩ := ht
      rw [window_ident (isIdent_of_toLower (h _ List.mem_cons_self)), List.length_cons,
        List.drop_succ_cons, List.drop_succ_cons, ih (fun y hy => h y (List.mem_cons_of_mem _ hy)) ht]

/-- Whether a bracket comes next, or an identifier goes on, is seen in the window. -/
theorem any_head?_window {p : Char → Bool} (h : ∀ c, isIdent c = false → c ≠ '(' → p c = false)
    (t : Text) : (window t).head?.any p = t.head?.any p := by
  cases t with
  | nil => rfl
  | cons c t =>
    rcases hc : isIdent c with _ | _
    · by_cases hb : c = '('
      · rw [hb, window_bracket, List.head?_cons, List.head?_cons]
      · simp [window_stop hc hb, h c hc hb]
    · rw [window_ident hc, List.head?_cons, List.head?_cons]

/-- **Whether a url begins is decided by its first character and the window behind it.** -/
theorem opensUrl_window (joined : Bool) (c : Char) (t : Text) :
    opensUrl joined (c :: window t) = opensUrl joined (c :: t) := by
  have hall : "rl".toList.all isIdent = true := by decide
  have hword : ∀ y ∈ "rl".toList, isIdent y = true := List.all_eq_true.mp hall
  have hsplit : ∀ t, opensUrl joined (c :: t) =
      (!joined && (decide (c.toLower = 'u') && (beginsWith "rl".toList t &&
        (t.drop "rl".toList.length).head?.any (· = '(')))) := by
    intro t
    show (!joined && beginsWith ('u' :: ("rl".toList ++ ['('])) (c :: t)) = _
    rw [beginsWith_cons, beginsWith_append_singleton (by decide)]
  rw [hsplit, hsplit, beginsWith_window hword]
  rcases ht : beginsWith "rl".toList t with _ | _
  · simp
  · rw [drop_window hword ht, any_head?_window (fun d _ hb => by simpa using hb)]

/-- **Whether a font face begins is decided by its first character and the window behind it.** -/
theorem opensFontFace_window (c : Char) (t : Text) :
    opensFontFace (c :: window t) = opensFontFace (c :: t) := by
  have hall : "font-face".toList.all isIdent = true := by decide
  have hword : ∀ y ∈ "font-face".toList, isIdent y = true := List.all_eq_true.mp hall
  show (beginsWith ('@' :: "font-face".toList) (c :: window t) &&
      !((window t).drop "font-face".toList.length).head?.any isIdent) =
    (beginsWith ('@' :: "font-face".toList) (c :: t) &&
      !(t.drop "font-face".toList.length).head?.any isIdent)
  rw [beginsWith_cons, beginsWith_cons, beginsWith_window hword]
  rcases ht : beginsWith "font-face".toList t with _ | _
  · simp
  · rw [drop_window hword ht, any_head?_window (fun _ hd _ => hd)]

/-! ### Plain characters -/

/-- A character is plain exactly if nothing opens with it. -/
theorem keptAt_eq_none_iff {joined : Bool} {c : Char} {cs : Text} :
    keptAt joined c cs = none ↔
      Extent.opensComment c cs = false ∧ (sign c).isQuote = false ∧
        opensUrl joined (c :: cs) = false ∧ opensFontFace (c :: cs) = false ∧
          isControl c = false := by
  unfold keptAt
  constructor
  · intro h
    split at h
    · dsimp only at h
      split at h <;> cases h
    · split at h
      · cases h
      · split at h
        · cases h
        · split at h
          · cases h
          · split at h
            · cases h
            · simp_all
  · rintro ⟨hcomment, hquote, hurl, hface, hcontrol⟩
    simp [hcomment, hquote, hurl, hface, hcontrol]

/-- **A plain character stays plain** where the window behind it is the same and no comment begins. -/
theorem keptAt_none_congr {joined : Bool} {c : Char} {cs ds : Text}
    (hwindow : window ds = window cs) (hcomment : Extent.opensComment c ds = false)
    (h : keptAt joined c cs = none) : keptAt joined c ds = none := by
  rw [keptAt_eq_none_iff] at h ⊢
  obtain ⟨-, hquote, hurl, hface, hcontrol⟩ := h
  refine ⟨hcomment, hquote, ?_, ?_, hcontrol⟩
  · rwa [← opensUrl_window, hwindow, opensUrl_window]
  · rwa [← opensFontFace_window, hwindow, opensFontFace_window]

/-! ### Kept stretches -/

/-- Only a slash opens a comment. -/
theorem opensComment_of_sign {c : Char} (h : sign c ≠ .slash) (cs : Text) :
    Extent.opensComment c cs = false := by
  simp [Extent.opensComment, h]

/-- A url that opens has its bracket. -/
theorem length_le_of_opensUrl {joined : Bool} {c : Char} {cs : Text}
    (h : opensUrl joined (c :: cs) = true) : 3 ≤ cs.length := by
  rw [opensUrl, Bool.and_eq_true] at h
  have hlen : "url(".toList.length ≤ (c :: cs).length := length_le_of_beginsWith h.2
  exact Nat.le_of_succ_le_succ hlen

/-- Whether a url begins is decided by its first four letters. -/
theorem opensUrl_append {joined : Bool} {c : Char} {u : Text} (h : 3 ≤ u.length) (t : Text) :
    opensUrl joined (c :: (u ++ t)) = opensUrl joined (c :: u) := by
  have hlen : "url(".toList.length ≤ (c :: u).length := Nat.succ_le_succ h
  rw [opensUrl, ← List.cons_append, beginsWith_append hlen, opensUrl]

/-- The first letter of a url belongs to an identifier. -/
theorem isIdent_of_opensUrl {joined : Bool} {c : Char} {cs : Text}
    (h : opensUrl joined (c :: cs) = true) : isIdent c = true := by
  have hu : beginsWith ('u' :: "rl(".toList) (c :: cs) = true := by
    rw [opensUrl, Bool.and_eq_true] at h
    exact h.2
  rw [beginsWith_cons, Bool.and_eq_true, decide_eq_true_eq] at hu
  apply isIdent_of_toLower
  rw [hu.1]
  decide

/-- What a font face begins with. -/
theorem of_opensFontFace {c : Char} {cs : Text} (h : opensFontFace (c :: cs) = true) :
    c = '@' ∧ beginsWith "font-face".toList cs = true ∧
      (cs.drop "font-face".toList.length).head?.any isIdent = false := by
  have hf : (beginsWith ('@' :: "font-face".toList) (c :: cs) &&
      !(cs.drop "font-face".toList.length).head?.any isIdent) = true := h
  rw [beginsWith_cons, Bool.and_eq_true, Bool.and_eq_true, decide_eq_true_eq,
    Bool.not_eq_true'] at hf
  obtain ⟨⟨hat, hword⟩, hnext⟩ := hf
  exact ⟨eq_of_toLower_eq (by decide) hat, hword, hnext⟩

/-- A font face begins with its name, and no identifier may go on behind it. -/
theorem opensFontFace_at {cs : Text} (hword : beginsWith "font-face".toList cs = true)
    (hnext : (cs.drop "font-face".toList.length).head?.any isIdent = false) :
    opensFontFace ('@' :: cs) = true := by
  show (beginsWith ('@' :: "font-face".toList) ('@' :: cs) &&
    !(cs.drop "font-face".toList.length).head?.any isIdent) = true
  rw [beginsWith_cons, hword, hnext]
  rfl

/-- What a kept stretch may be, and how far it goes. -/
theorem keptAt_cases {joined : Bool} {c : Char} {cs : Text} {kind : SpanKind} {n : Nat}
    (h : keptAt joined c cs = some (kind, n)) :
    (Extent.opensComment c cs = true ∧ n = Extent.comment cs.tail + 1 ∧ kind = .comment ∧
      isNoFlip (c :: cs.take n) = false) ∨
    (∃ m, Extent.opensComment c cs = true ∧ m = Extent.comment cs.tail + 1 ∧ kind = .noFlip ∧
      isNoFlip (c :: cs.take m) = true ∧ n = m + Extent.target (cs.drop m)) ∨
    ((sign c).isQuote = true ∧ kind = .quoted ∧ n = Extent.string (sign c) cs) ∨
    (opensUrl joined (c :: cs) = true ∧ kind = .url ∧ n = Extent.url (cs.drop 3) + 3) ∨
    (opensFontFace (c :: cs) = true ∧ kind = .fontFace ∧ n = Extent.rule 0 cs) ∨
    (isControl c = true ∧ kind = .control ∧ n = 0) := by
  unfold keptAt at h
  split at h
  next hcomment =>
    dsimp only at h
    split at h
    next hflip =>
      cases h
      exact .inr (.inl ⟨_, hcomment, rfl, rfl, hflip, rfl⟩)
    next hflip =>
      cases h
      exact .inl ⟨hcomment, rfl, rfl, by simpa using hflip⟩
  next =>
    split at h
    next hquote =>
      cases h
      exact .inr (.inr (.inl ⟨hquote, rfl, rfl⟩))
    next =>
      split at h
      next hurl =>
        cases h
        exact .inr (.inr (.inr (.inl ⟨hurl, rfl, rfl⟩)))
      next =>
        split at h
        next hface =>
          cases h
          exact .inr (.inr (.inr (.inr (.inl ⟨hface, rfl, rfl⟩))))
        next =>
          split at h
          next hcontrol =>
            cases h
            exact .inr (.inr (.inr (.inr (.inr ⟨hcontrol, rfl, rfl⟩))))
          next => cases h

/-- What is kept for a no-flip comment begins with one. -/
theorem of_keptAt_noFlip {joined : Bool} {c : Char} {cs : Text} {n : Nat}
    (h : keptAt joined c cs = some (.noFlip, n)) :
    Extent.opensComment c cs = true ∧ isNoFlip (c :: cs.take (Extent.comment cs.tail + 1)) = true := by
  rcases keptAt_cases h with ⟨-, -, hne, -⟩ | ⟨m, hcomment, rfl, -, hflip, -⟩ | ⟨-, hne, -⟩ |
    ⟨-, hne, -⟩ | ⟨-, hne, -⟩ | ⟨-, hne, -⟩
  case inr.inl => exact ⟨hcomment, hflip⟩
  all_goals cases hne

/-- A comment that asks for nothing is kept alone. -/
theorem keptAt_comment {joined : Bool} {c : Char} {cs : Text} {n : Nat}
    (h : Extent.opensComment c cs = true) (hn : Extent.comment cs.tail + 1 = n)
    (hflip : isNoFlip (c :: cs.take n) = false) : keptAt joined c cs = some (.comment, n) := by
  rw [keptAt, if_pos h, hn]
  simp [hflip]

/-- A no-flip comment is kept with its target. -/
theorem keptAt_noFlip {joined : Bool} {c : Char} {cs : Text} {m : Nat}
    (h : Extent.opensComment c cs = true) (hm : Extent.comment cs.tail + 1 = m)
    (hflip : isNoFlip (c :: cs.take m) = true) :
    keptAt joined c cs = some (.noFlip, m + Extent.target (cs.drop m)) := by
  rw [keptAt, if_pos h, hm]
  simp [hflip]

/-- A no-flip comment is kept with what it guards in the text behind it. -/
theorem keptAt_noFlip_cons {joined : Bool} {c d : Char} {u t : Text}
    (h : Extent.opensComment c (d :: (u ++ t)) = true) (hend : Extent.comment (u ++ t) = u.length)
    (hflip : isNoFlip (c :: d :: u) = true) :
    keptAt joined c (d :: (u ++ t)) = some (.noFlip, (d :: u).length + Extent.target t) := by
  have htake : (d :: (u ++ t)).take (u.length + 1) = d :: u := by
    rw [List.take_succ_cons, List.take_left]
  rw [keptAt_noFlip (m := u.length + 1) h (by rw [List.tail_cons, hend]) (by rwa [htake]),
    List.drop_succ_cons, List.drop_left, List.length_cons]

/-- A quote begins a string, and nothing else. -/
theorem keptAt_quote {joined : Bool} {c : Char} (h : (sign c).isQuote = true) (cs : Text) :
    keptAt joined c cs = some (.quoted, Extent.string (sign c) cs) := by
  have hslash : sign c ≠ .slash := by
    intro hs
    rw [hs] at h
    cases h
  rw [keptAt, opensComment_of_sign hslash]
  simp [h]

/-- A url is kept up to its bracket. -/
theorem keptAt_url {joined : Bool} {c : Char} {cs : Text} (h : opensUrl joined (c :: cs) = true) :
    keptAt joined c cs = some (.url, Extent.url (cs.drop 3) + 3) := by
  have hc : sign c = .other := sign_of_isIdent (isIdent_of_opensUrl h)
  rw [keptAt, opensComment_of_sign (by simp [hc]), hc, if_pos h]
  rfl

/-- A font face is kept with its block. -/
theorem keptAt_fontFace {joined : Bool} {c : Char} {cs : Text}
    (h : opensFontFace (c :: cs) = true) :
    keptAt joined c cs = some (.fontFace, Extent.rule 0 cs) := by
  obtain ⟨rfl, -⟩ := of_opensFontFace h
  have hurl : opensUrl joined ('@' :: cs) = false := by
    rcases hu : opensUrl joined ('@' :: cs) with _ | _
    · rfl
    · exact absurd (isIdent_of_opensUrl hu) (by decide)
  rw [keptAt, opensComment_of_sign (by decide), hurl, h]
  rfl

/-- A control character is kept alone. -/
theorem keptAt_control {joined : Bool} {c : Char} (h : isControl c = true) (cs : Text) :
    keptAt joined c cs = some (.control, 0) := by
  have hc : c = opener ∨ c = closer := by simpa [isControl] using h
  have hslash : sign c ≠ .slash := by rcases hc with rfl | rfl <;> decide
  have hquote : (sign c).isQuote = false := by rcases hc with rfl | rfl <;> decide
  have hident : isIdent c = false := by rcases hc with rfl | rfl <;> decide
  have hat : c ≠ '@' := by rcases hc with rfl | rfl <;> decide
  have hurl : opensUrl joined (c :: cs) = false := by
    rcases hu : opensUrl joined (c :: cs) with _ | _
    · rfl
    · rw [isIdent_of_opensUrl hu] at hident
      cases hident
  have hface : opensFontFace (c :: cs) = false := by
    rcases hf : opensFontFace (c :: cs) with _ | _
    · rfl
    · exact absurd (of_opensFontFace hf).1 hat
  rw [keptAt, opensComment_of_sign hslash, hquote, hurl, hface, h]
  rfl

/-- A kept stretch does not go beyond the end of the source. -/
theorem keptAt_le {joined : Bool} {c : Char} {cs : Text} {kind : SpanKind} {n : Nat}
    (h : keptAt joined c cs = some (kind, n)) : n ≤ cs.length := by
  obtain ⟨hcomment, rfl, -⟩ | ⟨m, hcomment, hm, -, -, rfl⟩ | ⟨-, -, rfl⟩ | ⟨hurl, -, rfl⟩ |
    ⟨-, -, rfl⟩ | ⟨-, -, rfl⟩ := keptAt_cases h
  · exact Extent.comment_tail_le hcomment
  · have hle : m ≤ cs.length := hm ▸ Extent.comment_tail_le hcomment
    have htarget := Extent.target_le (cs.drop m)
    rw [List.length_drop] at htarget
    omega
  · exact Extent.string_le _ cs
  · have hlen := length_le_of_opensUrl hurl
    have hle := Extent.url_le (cs.drop 3)
    rw [List.length_drop] at hle
    omega
  · exact Extent.rule_le 0 cs
  · exact Nat.zero_le _

/-- A declaration goes on over the letters of a word. -/
theorem rule_of_beginsWith {word t : Text} (h : ∀ y ∈ word, isIdent y = true)
    (ht : beginsWith word t = true) :
    Extent.rule 0 t = word.length + Extent.rule 0 (t.drop word.length) := by
  induction word generalizing t with
  | nil => simp
  | cons y word ih =>
    cases t with
    | nil =>
      rw [beginsWith_nil] at ht
      cases ht
    | cons c t =>
      rw [beginsWith_cons, Bool.and_eq_true, decide_eq_true_eq] at ht
      obtain ⟨rfl, ht⟩ := ht
      have hc : sign c = .other :=
        sign_of_isIdent (isIdent_of_toLower (h _ List.mem_cons_self))
      have hunit : Extent.unit c t = 0 := by simp [Extent.unit, Extent.opensComment, hc, Sign.isQuote]
      rw [Extent.rule_unit (by rw [hc]; rfl), hunit, List.drop_zero, List.length_cons,
        List.drop_succ_cons, ih (fun y hy => h y (List.mem_cons_of_mem _ hy)) ht]
      omega

/-- No identifier goes on at a closing brace. -/
theorem not_isIdent_of_startsClosed {t : Text} (h : Extent.startsClosed t = true) :
    t.head?.any isIdent = false := by
  cases t with
  | nil => rfl
  | cons c t =>
    have hc : sign c = .closeBrace := by simpa [Extent.startsClosed] using h
    rcases hi : isIdent c with _ | _
    · simpa using hi
    · rw [sign_of_isIdent hi] at hc
      cases hc

/-- A font face opens whatever follows, if it ends before the source does. Excepted is the brace at which it may
have ended. -/
theorem opensFontFace_congr {u v r : Text} (hv : v ≠ [])
    (hclosed : Extent.startsClosed v = true → Extent.startsClosed r = true)
    (h : opensFontFace ('@' :: (u ++ v)) = true) (hend : Extent.rule 0 (u ++ v) = u.length) :
    opensFontFace ('@' :: (u ++ r)) = true := by
  obtain ⟨-, hword, hnext⟩ := of_opensFontFace h
  have hall : "font-face".toList.all isIdent = true := by decide
  have hsum := rule_of_beginsWith (List.all_eq_true.mp hall) hword
  have hlen : "font-face".toList.length ≤ u.length := by omega
  rw [List.drop_append_of_le_length hlen] at hnext hsum
  refine opensFontFace_at ?_ ?_
  · rwa [beginsWith_append hlen] at hword ⊢
  · rw [List.drop_append_of_le_length hlen]
    cases hd : u.drop "font-face".toList.length with
    | cons d w => rwa [hd] at hnext
    | nil =>
      -- the font face ends right behind its name, at a closing brace
      have hle : u.length ≤ "font-face".toList.length := List.drop_eq_nil_iff.mp hd
      rw [hd, List.nil_append] at hsum
      have hzero : Extent.rule 0 v = 0 := by omega
      exact not_isIdent_of_startsClosed (hclosed (Extent.startsClosed_of_rule_eq_zero hv hzero).1)

/-- **A kept stretch ends where it does whatever follows**, if it ends before the source does. Excepted are
the brace at which a font face or the target of a no-flip comment may have ended, and a no-flip comment
that guards nothing. -/
theorem keptAt_congr {joined : Bool} {c : Char} {u v r : Text} {kind : SpanKind} (hv : v ≠ [])
    (hclosed : Extent.startsClosed v = true → Extent.startsClosed r = true)
    (htarget : Extent.target v = 0 → Extent.target r = 0)
    (h : keptAt joined c (u ++ v) = some (kind, u.length)) :
    keptAt joined c (u ++ r) = some (kind, u.length) := by
  obtain ⟨hcomment, hn, rfl, hflip⟩ | ⟨m, hcomment, rfl, rfl, hflip, hn⟩ | ⟨hquote, rfl, hn⟩ |
    ⟨hurl, rfl, hn⟩ | ⟨hface, rfl, hn⟩ | ⟨hcontrol, rfl, hn⟩ := keptAt_cases h
  case inl =>
    cases u with
    | nil => cases hn
    | cons d u =>
      rw [List.cons_append, List.tail_cons, List.length_cons, Nat.add_right_cancel_iff] at hn
      refine keptAt_comment hcomment ?_ ?_
      · rw [List.cons_append, List.tail_cons, Extent.comment_congr hv r hn.symm, List.length_cons]
      · rwa [List.take_left] at hflip ⊢
  case inr.inl =>
    cases u with
    | nil =>
      rw [List.length_nil] at hn
      omega
    | cons d u =>
      rw [List.cons_append, List.tail_cons] at hn hflip
      rw [List.drop_succ_cons, List.length_cons] at hn
      -- the comment ends within the stretch, and what it guards at its end
      obtain ⟨u₁, u₂, rfl, hend, hguards⟩ :=
        Extent.exists_seq (f := Extent.target) (g := Extent.comment) (u := u) (v := v) (by omega)
      rw [List.append_assoc, hend, List.take_succ_cons, List.take_left] at hflip
      have hguards' : Extent.target (u₂ ++ r) = u₂.length := by
        cases u₂ with
        | nil => exact htarget hguards
        | cons e u₂ => exact Extent.target_congr (List.cons_ne_nil e u₂) hv hclosed hguards
      have hend' : Extent.comment (u₁ ++ (u₂ ++ r)) = u₁.length :=
        Extent.comment_congr (List.append_ne_nil_of_right_ne_nil _ hv) _ hend
      have hopens : Extent.opensComment c (d :: (u₁ ++ (u₂ ++ r))) = true := hcomment
      rw [List.cons_append, List.append_assoc, keptAt_noFlip_cons hopens hend' hflip, hguards',
        ← List.length_append, List.cons_append]
  case inr.inr.inl =>
    rw [keptAt_quote hquote, Extent.string_congr hv r hn.symm]
  case inr.inr.inr.inl =>
    have hlen : 3 ≤ u.length := by omega
    rw [List.drop_append_of_le_length hlen] at hn
    have hend : Extent.url (u.drop 3 ++ v) = (u.drop 3).length := by
      rw [List.length_drop]
      omega
    rw [opensUrl_append hlen] at hurl
    rw [keptAt_url (by rwa [opensUrl_append hlen]), List.drop_append_of_le_length hlen,
      Extent.url_congr hv r hend, List.length_drop, Nat.sub_add_cancel hlen]
  case inr.inr.inr.inr.inl =>
    obtain ⟨rfl, -⟩ := of_opensFontFace hface
    rw [keptAt_fontFace (opensFontFace_congr hv hclosed hface hn.symm),
      Extent.rule_congr hv hclosed hn.symm]
  case inr.inr.inr.inr.inr => rw [keptAt_control hcontrol, hn]

end Piece

end BidiSheet
