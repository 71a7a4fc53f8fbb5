import BidiSheet.Proofs.Case
import BidiSheet.Proofs.Extent
import BidiSheet.Url

/-!
# Exchanging words in urls

A url is cut into runs, its words and the characters between them, in one way only (`Url.runs_of_isCut`). A
word is exchanged for a word, so the runs of the new url are those of the old one with the words exchanged
(`Url.runs_swapWords`), and what is said of a url can be said run by run.

The scanner of urls looks at letters only to skip them, and a letter behind a backslash is skipped like any
other. So it is in the same state behind a word whatever the word is (`Url.scan_word`), and a url that ends
with its closing bracket still does so with its words exchanged.

* `Url.swapWords_exact`: which words are exchanged and what they become, what exchanging words twice or three
  times gives, and that a url stays a url.
-/

namespace BidiSheet

open HasSign (sign)

/-! ### Words that are exchanged -/

namespace UrlOptions

/-- The words `w` and `p`, in small letters, are exchanged for each other. -/
def Exchanges (options : UrlOptions) (w p : Text) : Prop :=
  (options.leftRight = true ∧
    (w = "left".toList ∧ p = "right".toList ∨ w = "right".toList ∧ p = "left".toList)) ∨
  (options.ltrRtl = true ∧
    (w = "ltr".toList ∧ p = "rtl".toList ∨ w = "rtl".toList ∧ p = "ltr".toList))

variable {options : UrlOptions} {w p : Text}

/-- The partner of a word is the one that it is exchanged for. -/
theorem partner_eq_some_iff : options.partner w = some p ↔ options.Exchanges w p := by
  constructor
  · intro h
    unfold partner at h
    simp only [Bool.and_eq_true, decide_eq_true_eq] at h
    split at h
    next hw => exact .inr ⟨hw.1, .inl ⟨hw.2, (Option.some.inj h).symm⟩⟩
    split at h
    next hw => exact .inr ⟨hw.1, .inr ⟨hw.2, (Option.some.inj h).symm⟩⟩
    split at h
    next hw => exact .inl ⟨hw.1, .inl ⟨hw.2, (Option.some.inj h).symm⟩⟩
    split at h
    next hw => exact .inl ⟨hw.1, .inr ⟨hw.2, (Option.some.inj h).symm⟩⟩
    cases h
  · rintro (⟨ho, ⟨rfl, rfl⟩ | ⟨rfl, rfl⟩⟩ | ⟨ho, ⟨rfl, rfl⟩ | ⟨rfl, rfl⟩⟩) <;> simp [partner, ho]

/-- Words that are exchanged for each other consist of small letters. -/
theorem Exchanges.isSmall (h : options.Exchanges w p) : isSmall w = true ∧ isSmall p = true := by
  obtain ⟨-, ⟨rfl, rfl⟩ | ⟨rfl, rfl⟩⟩ | ⟨-, ⟨rfl, rfl⟩ | ⟨rfl, rfl⟩⟩ := h <;> decide

/-- Words that are exchanged for each other may be written in each other's case. -/
theorem Exchanges.counterparts (h : options.Exchanges w p) : Counterparts w p := by
  obtain ⟨-, ⟨rfl, rfl⟩ | ⟨rfl, rfl⟩⟩ | ⟨-, ⟨rfl, rfl⟩ | ⟨rfl, rfl⟩⟩ := h <;> decide

theorem Exchanges.symm (h : options.Exchanges w p) : options.Exchanges p w := by
  obtain ⟨ho, h | h⟩ | ⟨ho, h | h⟩ := h
  · exact .inl ⟨ho, .inr h.symm⟩
  · exact .inl ⟨ho, .inl h.symm⟩
  · exact .inr ⟨ho, .inr h.symm⟩
  · exact .inr ⟨ho, .inl h.symm⟩

/-- Both options together. -/
def union (o₁ o₂ : UrlOptions) : UrlOptions := ⟨o₁.leftRight || o₂.leftRight, o₁.ltrRtl || o₂.ltrRtl⟩

/-- Whether nothing is asked for by both options. -/
def areDisjoint (o₁ o₂ : UrlOptions) : Bool :=
  !(o₁.leftRight && o₂.leftRight) && !(o₁.ltrRtl && o₂.ltrRtl)

variable {o₁ o₂ : UrlOptions}

/-- Two options together exchange what either does. -/
theorem exchanges_union : (o₁.union o₂).Exchanges w p ↔ o₁.Exchanges w p ∨ o₂.Exchanges w p := by
  simp only [Exchanges, union, Bool.or_eq_true]
  rw [or_and_right, or_and_right]
  exact or_or_or_comm

theorem union_comm (o₁ o₂ : UrlOptions) : o₁.union o₂ = o₂.union o₁ := by
  rw [union, union, Bool.or_comm, Bool.or_comm o₁.ltrRtl]

theorem areDisjoint_comm (o₁ o₂ : UrlOptions) : o₁.areDisjoint o₂ = o₂.areDisjoint o₁ := by
  rw [areDisjoint, areDisjoint, Bool.and_comm o₁.leftRight, Bool.and_comm o₁.ltrRtl]

/-- No word is exchanged by two options that have nothing in common. -/
theorem Exchanges.not_of_areDisjoint {q : Text} (h : o₁.Exchanges w p)
    (hdisjoint : o₁.areDisjoint o₂ = true) : ¬ o₂.Exchanges w q := by
  intro h'
  have hnot : ¬(o₁.leftRight = true ∧ o₂.leftRight = true) ∧ ¬(o₁.ltrRtl = true ∧ o₂.ltrRtl = true) := by
    constructor <;> rintro ⟨ho₁, ho₂⟩ <;> simp [areDisjoint, ho₁, ho₂] at hdisjoint
  obtain ⟨ho, hw⟩ | ⟨ho, hw⟩ := h
  · obtain ⟨ho', -⟩ | ⟨-, hw'⟩ := h'
    · exact hnot.1 ⟨ho, ho'⟩
    · obtain ⟨rfl, -⟩ | ⟨rfl, -⟩ := hw <;> obtain ⟨h, -⟩ | ⟨h, -⟩ := hw' <;> exact absurd h (by decide)
  · obtain ⟨-, hw'⟩ | ⟨ho', -⟩ := h'
    · obtain ⟨rfl, -⟩ | ⟨rfl, -⟩ := hw <;> obtain ⟨h, -⟩ | ⟨h, -⟩ := hw' <;> exact absurd h (by decide)
    · exact hnot.2 ⟨ho, ho'⟩

end UrlOptions

/-! ### Words -/

namespace Url

open UrlOptions (Exchanges)

variable {options : UrlOptions} {w p : Text}

/-- A word after its exchange. -/
def swapWord (options : UrlOptions) (w : Text) : Text := Run.swap options (.word w)

/-- A word that is exchanged takes its case to its partner. -/
theorem swapWord_of_exchanges (h : options.Exchanges (lower w) p) : swapWord options w = recasePart p w := by
  have hletters := isLetters_of_lower rfl h.isSmall.1
  have hp := isLetters_of_isSmall h.isSmall.2
  rw [swapWord, Run.swap, Run.swap?, UrlOptions.partner_eq_some_iff.mpr h, Option.map_some, Option.getD_some,
    recase_of_isLetters hp hletters]

/-- A word that is not exchanged stays as it is. -/
theorem swapWord_of_not (h : ∀ p, ¬ options.Exchanges (lower w) p) : swapWord options w = w := by
  have hnone : options.partner (lower w) = none := by
    rw [Option.eq_none_iff_forall_ne_some]
    exact fun p hp => h p (UrlOptions.partner_eq_some_iff.mp hp)
  rw [swapWord, Run.swap, Run.swap?, hnone, Option.map_none, Option.getD_none, Run.text]

/-- A word is exchanged for its partner, or stays. -/
theorem exchanges_or_not (options : UrlOptions) (w : Text) :
    (∃ p, options.Exchanges w p) ∨ ∀ p, ¬ options.Exchanges w p := by
  rw [← not_exists]
  exact Classical.em _

/-- But for its case, a word becomes its partner. -/
theorem lower_swapWord (h : options.Exchanges (lower w) p) : lower (swapWord options w) = p := by
  rw [swapWord_of_exchanges h, h.counterparts.lower_recasePart]

/-- A word stays a word. -/
theorem isLetters_swapWord (h : isLetters w = true) : isLetters (swapWord options w) = true := by
  obtain ⟨p, hp⟩ | hnot := exchanges_or_not options (lower w)
  · exact isLetters_of_lower (lower_swapWord hp) hp.isSmall.2
  · rwa [swapWord_of_not hnot]

/-- Exchanging a word three times is exchanging it once. -/
theorem swapWord_thrice (options : UrlOptions) (w : Text) :
    swapWord options (swapWord options (swapWord options w)) = swapWord options w := by
  obtain ⟨p, hp⟩ | hnot := exchanges_or_not options (lower w)
  · have hlower := lower_swapWord hp
    have hback : options.Exchanges (lower (swapWord options w)) (lower w) := hlower ▸ hp.symm
    have hforth : options.Exchanges (lower (swapWord options (swapWord options w))) p :=
      (lower_swapWord hback).symm ▸ hp
    rw [swapWord_of_exchanges hforth, swapWord_of_exchanges hback, swapWord_of_exchanges hp,
      hp.counterparts.recasePart_thrice rfl]
  · rw [swapWord_of_not hnot, swapWord_of_not hnot, swapWord_of_not hnot]

/-- A word that is written in one way comes back when it is exchanged twice. -/
theorem swapWord_swapWord (h : ∀ p, options.Exchanges (lower w) p → isUniform w = true) :
    swapWord options (swapWord options w) = w := by
  obtain ⟨p, hp⟩ | hnot := exchanges_or_not options (lower w)
  · have hback : options.Exchanges (lower (swapWord options w)) (lower w) := (lower_swapWord hp).symm ▸ hp.symm
    rw [swapWord_of_exchanges hback, swapWord_of_exchanges hp,
      hp.counterparts.recasePart_recasePart rfl (h p hp)]
  · rw [swapWord_of_not hnot, swapWord_of_not hnot]

/-- Options that have nothing in common may be followed one after the other. -/
theorem swapWord_union {o₁ o₂ : UrlOptions} (h : o₁.areDisjoint o₂ = true) (w : Text) :
    swapWord o₂ (swapWord o₁ w) = swapWord (o₁.union o₂) w := by
  obtain ⟨p, hp⟩ | hnot := exchanges_or_not o₁ (lower w)
  · have hstays : ∀ q, ¬ o₂.Exchanges (lower (swapWord o₁ w)) q := by
      rw [lower_swapWord hp]
      exact fun q => hp.symm.not_of_areDisjoint h
    rw [swapWord_of_not hstays, swapWord_of_exchanges hp,
      swapWord_of_exchanges (UrlOptions.exchanges_union.mpr (.inl hp))]
  · rw [swapWord_of_not hnot]
    obtain ⟨p, hp⟩ | hnot' := exchanges_or_not o₂ (lower w)
    · rw [swapWord_of_exchanges hp, swapWord_of_exchanges (UrlOptions.exchanges_union.mpr (.inr hp))]
    · rw [swapWord_of_not hnot', swapWord_of_not]
      intro p hp
      exact (UrlOptions.exchanges_union.mp hp).elim (hnot p) (hnot' p)

/-! ### Runs -/

/-- Runs as they are cut from a text: words consist of letters, between them are other characters, and no word
follows a word. -/
def IsCut : List Run → Prop
  | [] => True
  | .mark c :: rs => c.isAlpha = false ∧ IsCut rs
  | .word w :: rs => isLetters w = true ∧ (∀ v rs', rs ≠ .word v :: rs') ∧ IsCut rs

variable {rs : List Run}

/-- Where no word comes first, no letter does. -/
theorem head?_of_isCut (h : IsCut rs) (hfirst : ∀ v rs', rs ≠ .word v :: rs') :
    (rs.flatMap Run.text).head?.any Char.isAlpha = false := by
  cases rs with
  | nil => rfl
  | cons r rs =>
    cases r with
    | word w => exact absurd rfl (hfirst w rs)
    | mark c => exact h.1

/-- A character that is no letter is a run of its own. -/
theorem runs_mark {c : Char} (hc : c.isAlpha = false) (t : Text) : runs (c :: t) = .mark c :: runs t := by
  rw [runs, if_neg (by simp [hc])]

/-- Letters up to the next character that is none are one run. -/
theorem runs_word (hw : isLetters w = true) {t : Text} (ht : t.head?.any Char.isAlpha = false) :
    runs (w ++ t) = .word w :: runs t := by
  obtain ⟨hne, hall⟩ := isLetters_iff.mp hw
  obtain ⟨c, w, rfl⟩ := List.exists_cons_of_ne_nil hne
  obtain ⟨hc, hw⟩ := List.forall_mem_cons.mp hall
  have htake : t.takeWhile Char.isAlpha = [] := by
    cases t with
    | nil => rfl
    | cons d t => exact List.takeWhile_cons_of_neg (by simpa using ht)
  have hdrop : t.dropWhile Char.isAlpha = t := by
    cases t with
    | nil => rfl
    | cons d t => exact List.dropWhile_cons_of_neg (by simpa using ht)
  rw [List.cons_append, runs, if_pos hc, List.takeWhile_append_of_pos hw, List.dropWhile_append_of_pos hw,
    htake, hdrop, List.append_nil]

/-- **A url is cut into runs in one way.** -/
theorem runs_of_isCut (h : IsCut rs) : runs (rs.flatMap Run.text) = rs := by
  induction rs with
  | nil => rw [List.flatMap_nil, runs]
  | cons r rs ih =>
    cases r with
    | mark c =>
      rw [List.flatMap_cons, Run.text, List.singleton_append, runs_mark h.1, ih h.2]
    | word w =>
      obtain ⟨hw, hfirst, hrest⟩ := h
      rw [List.flatMap_cons, Run.text, runs_word hw (head?_of_isCut hrest hfirst), ih hrest]

/-- Where the first run is a word, the first character is a letter. -/
theorem isAlpha_of_runs {t v : Text} (h : runs t = .word v :: rs) : t.head?.any Char.isAlpha = true := by
  cases t with
  | nil =>
    rw [runs] at h
    cases h
  | cons c cs =>
    rw [runs] at h
    split at h
    next hc => exact hc
    · cases h

/-- The runs of a text are cut where they should be. -/
theorem isCut_runs (t : Text) : IsCut (runs t) := by
  fun_induction runs t with
  | case1 => trivial
  | case2 c cs hc ih =>
    refine ⟨isLetters_iff.mpr ⟨List.cons_ne_nil _ _, ?_⟩, ?_, ih⟩
    · intro d hd
      rcases List.mem_cons.mp hd with rfl | hd
      · exact hc
      · exact List.mem_takeWhile_imp hd
    · intro v rs' heq
      have hletter := isAlpha_of_runs heq
      have hhead := List.head?_dropWhile_not Char.isAlpha cs
      cases hcs : (cs.dropWhile Char.isAlpha).head? with
      | none =>
        rw [hcs] at hletter
        cases hletter
      | some d =>
        rw [hcs] at hletter hhead
        exact absurd hletter (by simpa using hhead)
  | case3 c cs hc ih => exact ⟨by simpa using hc, ih⟩

/-! ### Runs with their words exchanged -/

/-- A run after its exchange. -/
def Run.swapped (options : UrlOptions) : Run → Run
  | .word w => .word (swapWord options w)
  | .mark c => .mark c

/-- Exchanging the word of a run changes the text of the run. -/
theorem Run.text_swapped (options : UrlOptions) (r : Run) : (r.swapped options).text = r.swap options := by
  cases r <;> rfl

/-- Exchanged runs are cut where the runs are. -/
theorem isCut_map_swapped (h : IsCut rs) : IsCut (rs.map (Run.swapped options)) := by
  induction rs with
  | nil => trivial
  | cons r rs ih =>
    cases r with
    | mark c => exact ⟨h.1, ih h.2⟩
    | word w =>
      obtain ⟨hw, hfirst, hrest⟩ := h
      refine ⟨isLetters_swapWord hw, ?_, ih hrest⟩
      intro v rs' heq
      cases rs with
      | nil => cases heq
      | cons r rs =>
        cases r with
        | word u => exact hfirst u rs rfl
        | mark c => cases heq

/-- A url with its words exchanged, from its runs. -/
theorem swapWords_eq (options : UrlOptions) (u : Text) :
    swapWords options u = ((runs u).map (Run.swapped options)).flatMap Run.text := by
  rw [swapWords, List.flatMap_map]
  exact List.flatMap_congr fun r _ => (r.text_swapped options).symm

/-- **The runs of a url with its words exchanged** are its runs, with the words among them exchanged. -/
theorem runs_swapWords (options : UrlOptions) (u : Text) :
    runs (swapWords options u) = (runs u).map (Run.swapped options) := by
  rw [swapWords_eq, runs_of_isCut (isCut_map_swapped (isCut_runs u))]

/-- Exchanging words one time after the other does so with each run. -/
theorem swapWords_swapWords (o₁ o₂ : UrlOptions) (u : Text) :
    swapWords o₂ (swapWords o₁ u) = (runs u).flatMap fun r => (r.swapped o₁).swap o₂ := by
  rw [swapWords, runs_swapWords, List.flatMap_map]

/-- Options without anything in common can be carried out one after the other. -/
theorem swapWords_union {o₁ o₂ : UrlOptions} (h : o₁.areDisjoint o₂ = true) (u : Text) :
    swapWords o₂ (swapWords o₁ u) = swapWords (o₁.union o₂) u := by
  rw [swapWords_swapWords, swapWords]
  apply List.flatMap_congr
  intro r _
  cases r with
  | mark c => rfl
  | word w => exact swapWord_union h w

/-- A third exchange undoes the second. -/
theorem swapWords_thrice (options : UrlOptions) (u : Text) :
    swapWords options (swapWords options (swapWords options u)) = swapWords options u := by
  rw [swapWords_swapWords, runs_swapWords, List.flatMap_map, swapWords]
  apply List.flatMap_congr
  intro r _
  cases r with
  | mark c => rfl
  | word w => exact swapWord_thrice options w

/-- A second exchange undoes the first one where all words keep their case. -/
theorem swapWords_twice {u : Text}
    (h : ∀ w, .word w ∈ runs u → ∀ p, options.Exchanges (lower w) p → isUniform w = true) :
    swapWords options (swapWords options u) = u := by
  rw [swapWords_swapWords]
  have htext : (runs u).flatMap (fun r => (r.swapped options).swap options) = (runs u).flatMap Run.text := by
    apply List.flatMap_congr
    intro r hr
    cases r with
    | mark c => rfl
    | word w => exact swapWord_swapWord (h w hr)
  rw [htext, text_runs]

/-- A url has a word to exchange exactly if one of its runs is such a word. -/
theorem hasWord_iff {u : Text} :
    hasWord options u = true ↔ ∃ w, .word w ∈ runs u ∧ ∃ p, options.Exchanges (lower w) p := by
  rw [hasWord, List.any_eq_true]
  constructor
  · rintro ⟨r, hr, hsome⟩
    cases r with
    | mark c => cases hsome
    | word w =>
      rw [Run.swap?, Option.isSome_map] at hsome
      obtain ⟨p, hp⟩ := Option.isSome_iff_exists.mp hsome
      exact ⟨w, hr, p, UrlOptions.partner_eq_some_iff.mp hp⟩
  · rintro ⟨w, hw, p, hp⟩
    refine ⟨_, hw, ?_⟩
    rw [Run.swap?, UrlOptions.partner_eq_some_iff.mpr hp]
    rfl

/-! ### Scanning -/

/-- A sign that opens and closes strings. -/
abbrev Quote := { s : Sign // s.isQuote = true }

/-- What the scanner of a url has come to behind its opening bracket. -/
inductive Scan where
  /-- The inside of the url. -/
  | inside
  /-- The letter behind a backslash. -/
  | escaped
  /-- The inside of a string. -/
  | quoted (quote : Quote)
  /-- The letter behind a backslash in a string. -/
  | quotedEscaped (quote : Quote)
  /-- The end of the url. -/
  | closed
  /-- What comes behind the end. -/
  | beyond
  deriving DecidableEq

namespace Scan

/-- What the scanner comes to over a letter. -/
def step : Scan → Sign → Scan
  | .inside, s =>
    if s = .closeRound then .closed
    else if h : s.isQuote = true then .quoted ⟨s, h⟩
    else if s = .backslash then .escaped
    else .inside
  | .escaped, _ => .inside
  | .quoted quote, s =>
    if s = .backslash then .quotedEscaped quote else if s = quote.1 then .inside else .quoted quote
  | .quotedEscaped quote, _ => .quoted quote
  | .closed, _ => .beyond
  | .beyond, _ => .beyond

/-- Whether the end of the url is still to come. -/
def isOpen (state : Scan) : Bool := state ≠ .closed && state ≠ .beyond

/-- What the scanner has come to behind a text. -/
def after (state : Scan) (t : Text) : Scan := t.foldl (fun state c => state.step (sign c)) state

/-- The scanner goes on over a second text from where it has come to. -/
theorem after_append (state : Scan) (s t : Text) : state.after (s ++ t) = (state.after s).after t :=
  List.foldl_append

/-- The scanner goes over the first letter first. -/
theorem after_cons (state : Scan) (c : Char) (t : Text) :
    state.after (c :: t) = (state.step (sign c)).after t := rfl

/-- The number of characters up to the end of the url, or to the end of the text. -/
def reach (state : Scan) : Text → Nat
  | [] => 0
  | c :: cs => if state.step (sign c) = .closed then 1 else (state.step (sign c)).reach cs + 1

variable {state : Scan}

/-- Over a letter that does not end the url the scanner reaches one further. -/
theorem reach_cons {c : Char} {next : Scan} (h : state.step (sign c) = next) (hnext : next.isOpen = true)
    (cs : Text) : state.reach (c :: cs) = next.reach cs + 1 := by
  rw [reach, h, if_neg]
  rintro rfl
  cases hnext

/-- Behind a string the scanner goes on inside the url. -/
theorem reach_quoted (quote : Quote) (cs : Text) :
    reach (.quoted quote) cs
      = Extent.string quote.1 cs + reach .inside (cs.drop (Extent.string quote.1 cs)) := by
  have hescape : ∀ {c : Char}, sign c = .backslash →
      (quoted quote).step (sign c) = .quotedEscaped quote := fun hb => by rw [step, if_pos hb]
  fun_induction Extent.string quote.1 cs with
  | case1 => rfl
  | case2 c hb =>
    rw [reach_cons (hescape hb) rfl]
    rfl
  | case3 c hb d ds ih =>
    have hstep : (quotedEscaped quote).step (sign d) = .quoted quote := rfl
    rw [reach_cons (hescape hb) rfl, reach_cons hstep rfl, ih, List.drop_succ_cons, List.drop_succ_cons]
    omega
  | case4 c cs hb hq =>
    have hstep : (quoted quote).step (sign c) = .inside := by rw [step, if_neg hb, if_pos hq]
    rw [reach_cons hstep rfl, List.drop_one, List.tail_cons, Nat.add_comm]
  | case5 c cs hb hq ih =>
    have hstep : (quoted quote).step (sign c) = .quoted quote := by rw [step, if_neg hb, if_neg hq]
    rw [reach_cons hstep rfl, ih, List.drop_succ_cons]
    omega

/-- **The scanner comes to the end of a url where the url ends.** -/
theorem reach_inside (cs : Text) : reach .inside cs = Extent.url cs := by
  fun_induction Extent.url cs with
  | case1 => rfl
  | case2 c cs hc => rw [reach, step, if_pos hc, if_pos rfl]
  | case3 c cs hc hq ih =>
    have hstep : inside.step (sign c) = .quoted ⟨sign c, hq⟩ := by rw [step, if_neg hc, dif_pos hq]
    rw [reach_cons hstep rfl, reach_quoted, ih]
  | case4 c cs hc hq hb ih =>
    have hstep : inside.step (sign c) = .escaped := by rw [step, if_neg hc, dif_neg hq, if_pos hb]
    rw [reach_cons hstep rfl, ← ih]
    cases cs with
    | nil => rfl
    | cons d ds =>
      have hnext : escaped.step (sign d) = .inside := rfl
      rw [reach_cons hnext rfl, List.drop_one, List.tail_cons, List.length_cons]
      omega
  | case5 c cs hc hq hb ih =>
    have hstep : inside.step (sign c) = .inside := by rw [step, if_neg hc, dif_neg hq, if_neg hb]
    rw [reach_cons hstep rfl, ih]

/-- An open url is closed before anything is beyond it. -/
theorem step_ne_beyond (h : state.isOpen = true) (s : Sign) : state.step s ≠ .beyond := by
  cases state with
  | inside | quoted =>
    rw [step]
    split_ifs <;> nofun
  | escaped | quotedEscaped => nofun
  | closed | beyond => cases h

/-- Behind the end of a url any letter is beyond it. -/
theorem after_closed_eq_iff (t : Text) : after .closed t = .closed ↔ t = [] := by
  have hbeyond : ∀ t : Text, after .beyond t = .beyond := by
    intro t
    induction t with
    | nil => rfl
    | cons c t ih => exact ih
  cases t with
  | nil => simp [after]
  | cons c t => simp [after_cons, step, hbeyond]

/-- **A url ends behind a text whatever follows** exactly if the scanner comes to its end there. -/
theorem forall_reach_append_iff (h : state.isOpen = true) (t : Text) :
    (∀ rest, state.reach (t ++ rest) = t.length) ↔ state.after t = .closed := by
  induction t generalizing state with
  | nil =>
    constructor
    · intro hall
      have hone := hall ['x']
      rw [List.nil_append, reach] at hone
      split at hone <;> cases hone
    · rintro (rfl : state = .closed)
      cases h
  | cons c t ih =>
    rw [after_cons]
    by_cases hclosed : state.step (sign c) = .closed
    · rw [hclosed, after_closed_eq_iff]
      simp only [List.cons_append, reach, hclosed, if_true, List.length_cons]
      constructor
      · intro hall
        have hlen := hall []
        exact List.length_eq_zero_iff.mp (by omega)
      · rintro rfl rest
        rfl
    · have hopen : (state.step (sign c)).isOpen = true := by
        simp [isOpen, hclosed, step_ne_beyond h]
      rw [← ih hopen]
      simp only [List.cons_append, reach, if_neg hclosed, List.length_cons, Nat.add_right_cancel_iff]

/-- Skipping a second letter makes no difference. -/
theorem step_other_step_other (state : Scan) : (state.step .other).step .other = state.step .other := by
  have hquoted : ∀ quote : Quote, (quoted quote).step .other = .quoted quote := by
    rintro ⟨quote, hquote⟩
    have hne : Sign.other ≠ quote := by
      rintro rfl
      cases hquote
    rw [step, if_neg (by decide), if_neg hne]
  cases state with
  | quoted quote => rw [hquoted, hquoted]
  | quotedEscaped quote => exact hquoted quote
  | inside | escaped | closed | beyond => rfl

/-- **The scanner comes to the same behind every word.** -/
theorem after_word {w : Text} (hw : isLetters w = true) (state : Scan) :
    state.after w = state.step .other := by
  obtain ⟨hne, hall⟩ := isLetters_iff.mp hw
  have hsign : ∀ c ∈ w, sign c = .other := fun c hc => sign_of_isIdent (isIdent_of_isAlpha (hall c hc))
  clear hw hall
  induction w generalizing state with
  | nil => exact absurd rfl hne
  | cons c w ih =>
    obtain ⟨hc, hw⟩ := List.forall_mem_cons.mp hsign
    rw [after_cons, hc]
    cases w with
    | nil => rfl
    | cons d w => rw [ih _ (List.cons_ne_nil d w) hw, step_other_step_other]

/-- Exchanging words makes no difference to the scanner. -/
theorem after_swapWords (options : UrlOptions) (t : Text) (state : Scan) :
    state.after (swapWords options t) = state.after t := by
  have hall : ∀ {rs : List Run}, IsCut rs → ∀ state : Scan,
      state.after ((rs.map (Run.swapped options)).flatMap Run.text) = state.after (rs.flatMap Run.text) := by
    intro rs hrs
    induction rs with
    | nil => exact fun state => rfl
    | cons r rs ih =>
      intro state
      rw [List.map_cons, List.flatMap_cons, List.flatMap_cons, after_append, after_append]
      cases r with
      | mark c => exact ih hrs.2 _
      | word w =>
        have hsame : state.after (swapWord options w) = state.after w := by
          rw [after_word hrs.1, after_word (isLetters_swapWord hrs.1)]
        rw [ih hrs.2.2]
        exact congrArg (after · _) hsame
  rw [swapWords_eq, hall (isCut_runs t), text_runs]

end Scan

/-! ### Urls -/

/-- A url with its brackets: it opens, and it ends with the text, however that goes on. -/
structure IsToken (u : Text) : Prop where
  opens : beginsWith "url(".toList u = true
  ends (rest : Text) : Extent.url (u.drop 4 ++ rest) = (u.drop 4).length

/-- A url ends with a text whatever follows exactly if the scanner has closed it there. -/
theorem ends_iff {t : Text} :
    (∀ rest, Extent.url (t ++ rest) = t.length) ↔ Scan.inside.after t = .closed := by
  rw [← Scan.forall_reach_append_iff rfl]
  simp only [Scan.reach_inside]

/-- A url begins with its name, in whatever case, and a bracket. -/
theorem beginsWith_url_iff {u : Text} :
    beginsWith "url(".toList u = true ↔ ∃ name t, u = name ++ '(' :: t ∧ lower name = "url".toList := by
  have hsplit : beginsWith "url(".toList u = (beginsWith "url".toList u && (u.drop 3).head?.any (· = '(')) :=
    beginsWith_append_singleton (by decide) "url".toList u
  rw [hsplit, Bool.and_eq_true]
  constructor
  · rintro ⟨hname, hbracket⟩
    obtain ⟨t, ht⟩ : ∃ t, u.drop 3 = '(' :: t := by
      cases hdrop : u.drop 3 with
      | nil => simp [hdrop] at hbracket
      | cons c t =>
        rw [hdrop] at hbracket
        exact ⟨t, by rw [of_decide_eq_true hbracket]⟩
    exact ⟨u.take 3, t, by rw [← ht, List.take_append_drop], of_decide_eq_true hname⟩
  · rintro ⟨name, t, rfl, hname⟩
    have hlen : name.length = 3 := by
      have hlower := congrArg List.length hname
      rwa [lower, List.length_map] at hlower
    refine ⟨?_, by rw [List.drop_left' hlen]; rfl⟩
    rw [beginsWith, show "url".toList.length = name.length from hlen.symm, List.take_left, hname]
    exact decide_eq_true rfl

/-- The name of a url stays, and what is in its brackets is exchanged on its own. -/
theorem swapWords_url {name : Text} (h : lower name = "url".toList) (t : Text) :
    swapWords options (name ++ '(' :: t) = name ++ '(' :: swapWords options t := by
  have hletters : isLetters name = true := isLetters_of_lower h (by decide)
  have hstays : ∀ p, ¬ options.Exchanges (lower name) p := by
    rw [h]
    rintro p (⟨-, ⟨hw, -⟩ | ⟨hw, -⟩⟩ | ⟨-, ⟨hw, -⟩ | ⟨hw, -⟩⟩) <;> exact absurd hw (by decide)
  rw [swapWords_eq, runs_word hletters (by rfl), runs_mark (by decide), List.map_cons, List.map_cons,
    List.flatMap_cons, List.flatMap_cons, swapWords_eq]
  show swapWord options name ++ _ = _
  rw [swapWord_of_not hstays]
  rfl

/-- **A url stays a url** when its words are exchanged. -/
theorem IsToken.swapWords {u : Text} (h : IsToken u) : IsToken (swapWords options u) := by
  obtain ⟨name, t, rfl, hname⟩ := beginsWith_url_iff.mp h.opens
  have hdrop : ∀ x, (name ++ '(' :: x).drop 4 = x := by
    intro x
    have hlen : (name ++ ['(']).length = 4 := by
      have hlower := congrArg List.length hname
      rw [lower, List.length_map] at hlower
      rw [List.length_append, hlower]
      rfl
    rw [List.append_cons, List.drop_left' hlen]
  have hends := h.ends
  rw [hdrop, Url.ends_iff] at hends
  rw [swapWords_url hname]
  refine ⟨beginsWith_url_iff.mpr ⟨name, _, rfl, hname⟩, ?_⟩
  rw [hdrop, Url.ends_iff, Scan.after_swapWords, hends]

/-! ### The exchange as a whole -/

/-- What becomes of a run: a word that is exchanged is written in the case of the word that was there. -/
inductive Run.Becomes (options : UrlOptions) : Run → Text → Prop where
  | mark (c : Char) : Run.Becomes options (.mark c) [c]
  | exchanged {w p : Text} (h : options.Exchanges (lower w) p) : Run.Becomes options (.word w) (recase p w)
  | kept {w : Text} (h : ∀ p, ¬ options.Exchanges (lower w) p) : Run.Becomes options (.word w) w

/-- A run becomes what the exchange makes of it. -/
theorem Run.becomes_swap (options : UrlOptions) (r : Run) : r.Becomes options (r.swap options) := by
  cases r with
  | mark c => exact .mark c
  | word w =>
    obtain ⟨p, hp⟩ | hnot := exchanges_or_not options (lower w)
    · have hswap : Run.swap options (.word w) = recase p w := by
        rw [Run.swap, Run.swap?, UrlOptions.partner_eq_some_iff.mpr hp, Option.map_some, Option.getD_some]
      rw [hswap]
      exact .exchanged hp
    · have hswap : Run.swap options (.word w) = w := swapWord_of_not hnot
      rw [hswap]
      exact .kept hnot

/-- **Words in urls are exchanged cleanly.** A url is cut into runs in one way, and exchanging words puts the
partner of each word that the options name in its place, and leaves all other runs as they are; a change is
reported if there is such a word. Options that have nothing in common may be followed one after the other, in
either order. Exchanging words three times is exchanging them once, and doing so twice changes nothing if the
words are written in small letters, in capitals, or capitalised. A url with its closing bracket stays one. -/
theorem swapWords_exact (options : UrlOptions) (u : Text) :
    (∃ rs, (IsCut rs ∧ rs.flatMap Run.text = u) ∧ (∀ rs', IsCut rs' → rs'.flatMap Run.text = u → rs' = rs) ∧
      (∃ ts, List.Forall₂ (Run.Becomes options) rs ts ∧ swapWords options u = ts.flatten) ∧
      (hasWord options u = true ↔ ∃ w, .word w ∈ rs ∧ ∃ p, options.Exchanges (lower w) p) ∧
      ((∀ w, .word w ∈ rs → (∃ p, options.Exchanges (lower w) p) → isUniform w = true) →
        swapWords options (swapWords options u) = u)) ∧
    (∀ other : UrlOptions, options.areDisjoint other = true →
      swapWords other (swapWords options u) = swapWords (options.union other) u ∧
      swapWords other (swapWords options u) = swapWords options (swapWords other u)) ∧
    swapWords options (swapWords options (swapWords options u)) = swapWords options u ∧
    (IsToken u → IsToken (swapWords options u)) := by
  refine ⟨⟨runs u, ⟨isCut_runs u, text_runs u⟩, ?_, ⟨(runs u).map (Run.swap options), ?_, ?_⟩, hasWord_iff, ?_⟩,
    ?_, swapWords_thrice options u, IsToken.swapWords⟩
  · rintro rs' hcut rfl
    rw [runs_of_isCut hcut]
  · rw [List.forall₂_map_right_iff, List.forall₂_same]
    exact fun r _ => r.becomes_swap options
  · rw [swapWords, List.flatMap_def]
  · intro huniform
    exact swapWords_twice fun w hw p hp => huniform w hw ⟨p, hp⟩
  · intro other hdisjoint
    have hother : other.areDisjoint options = true := by rwa [UrlOptions.areDisjoint_comm]
    refine ⟨swapWords_union hdisjoint u, ?_⟩
    rw [swapWords_union hdisjoint, swapWords_union hother, UrlOptions.union_comm]

/-- A word behind a backslash, before a closing bracket in a string. -/
theorem swapWords_exact_quoted :
    let u := "Url('\\Left)ltr')".toList
    let sides : UrlOptions := { leftRight := true }
    let directions : UrlOptions := { ltrRtl := true }
    (IsToken u ∧ IsToken (swapWords sides u)) ∧ swapWords sides u = "Url('\\Right)ltr')".toList ∧
    (sides.areDisjoint directions = true ∧
      swapWords directions (swapWords sides u) = swapWords (sides.union directions) u ∧
      swapWords directions (swapWords sides u) = swapWords sides (swapWords directions u)) ∧
    ((∀ w, .word w ∈ runs u → (∃ p, sides.Exchanges (lower w) p) → isUniform w = true) ∧
      swapWords sides (swapWords sides u) = u) := by
  intro u sides directions
  have htoken : IsToken u := ⟨by decide, ends_iff.mpr (by decide)⟩
  have huniform : ∀ w, .word w ∈ runs u → (∃ p, sides.Exchanges (lower w) p) → isUniform w = true := by
    have hall : (runs u).all (fun | .word w => isUniform w | .mark _ => true) = true := by decide +kernel
    exact fun w hw _ => List.all_eq_true.mp hall _ hw
  obtain ⟨⟨rs, -, hunique, -, -, htwice⟩, hunion, -, hurl⟩ := swapWords_exact sides u
  rw [← hunique _ (isCut_runs u) (text_runs u)] at htwice
  exact ⟨⟨htoken, hurl htoken⟩, by decide +kernel, ⟨rfl, hunion directions rfl⟩, huniform, htwice huniform⟩

end Url

end BidiSheet
