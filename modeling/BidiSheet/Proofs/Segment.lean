import BidiSheet.Proofs.Declaration

/-!
# Segments of texts

How cutting a text into segments goes together with joining texts, and what becomes of the segments. The
number of declarations and of changed ones is the sum over the closed segments and the tail
(`declarations_reflectText`, `substitutions_reflectText`), and the reflected text is written segment by
segment (`text_reflectText`). Texts that are cut apart behind a closed block are reflected one after the
other (`reflectText_append`).
-/

namespace BidiSheet

namespace Segments

/-! ### Cutting joined texts -/

/-- Puts a text before the first segment. -/
def prepend (u : Text) : Segments → Segments
  | ⟨[], tail⟩ => ⟨[], u ++ tail⟩
  | ⟨s :: ss, tail⟩ => ⟨{ s with body := u ++ s.body } :: ss, tail⟩

@[simp] theorem prepend_nil (ss : Segments) : ss.prepend [] = ss := by
  obtain ⟨_ | _, _⟩ := ss <;> rfl

/-- A character before segments goes in front of what is before them. -/
theorem push_prepend (c : Char) (u : Text) (ss : Segments) :
    (ss.prepend u).push c = ss.prepend (c :: u) := by
  obtain ⟨_ | _, _⟩ := ss <;> rfl

/-- A text without delimiters goes to the front of the first segment. -/
theorem read_append_of_no_delimiter {u : Text} (hu : ∀ c ∈ u, isDelimiter c = false) (t : Text) :
    read (u ++ t) = (read t).prepend u := by
  induction u with
  | nil => rw [List.nil_append, prepend_nil]
  | cons c u ih =>
    have hc := hu c List.mem_cons_self
    have hrest := ih fun d hd => hu d (List.mem_cons_of_mem c hd)
    rw [List.cons_append, read, if_neg (by simp [hc]), hrest, push_prepend]

/-- Joins two lists of segments, the tail of the first to the front of the second. -/
def join (ss tt : Segments) : Segments :=
  { tt.prepend ss.tail with closed := ss.closed ++ (tt.prepend ss.tail).closed }

/-- A character before the first of two texts goes in front of both. -/
theorem join_push (c : Char) (ss tt : Segments) : (ss.push c).join tt = (ss.join tt).push c := by
  obtain ⟨_ | ⟨s, ss⟩, tail⟩ := ss
  · show tt.prepend (c :: tail) = (tt.prepend tail).push c
    rw [push_prepend]
  · rfl

/-- A delimiter before the first of two texts goes in front of both. -/
theorem join_close (c : Char) (ss tt : Segments) :
    (ss.close c).join tt = (ss.join tt).close c := rfl

/-- The segments of joined texts are the joined segments. -/
theorem read_append (s t : Text) : read (s ++ t) = (read s).join (read t) := by
  induction s with
  | nil => exact (prepend_nil (read t)).symm
  | cons c s ih =>
    rw [List.cons_append, read, read, ih]
    split
    · rw [join_close]
    · rw [join_push]

theorem join_of_tail_nil {ss : Segments} (h : ss.tail = []) (tt : Segments) :
    ss.join tt = ⟨ss.closed ++ tt.closed, tt.tail⟩ := by
  rw [join, h, prepend_nil]

/-- Behind a delimiter at its end a text has nothing more. -/
theorem tail_read_append_delimiter {c : Char} (h : isDelimiter c = true) (s : Text) :
    (read (s ++ [c])).tail = [] := by
  have hc : read [c] = ⟨[⟨[], c⟩], []⟩ := by
    rw [read, if_pos h]
    rfl
  rw [read_append, hc]
  rfl

end Segments

/-! ### Reflected segments -/

/-- The body of a reflected segment. -/
theorem Segment.body_reflect (table : Table) (s : Segment) :
    (s.reflect table).body = if s.closer = openBrace then s.body else reflectBody table s.body := by
  unfold Segment.reflect Segment.verdict
  split
  · rfl
  · exact textOf_ofBody table s.body

namespace Segments

/-- The tail of reflected segments. -/
theorem tail_reflect (table : Table) (ss : Segments) :
    (ss.reflect table).tail = if ss.tailMayDeclare then reflectBody table ss.tail else ss.tail := by
  unfold reflect tailVerdict
  split
  · exact textOf_ofBody table ss.tail
  · rfl

/-- The number of segments for whose verdict `p` holds. -/
def count (p : Verdict → Bool) (table : Table) (ss : Segments) : Nat :=
  (ss.closed.countP fun s => p (s.verdict table)) + if p (ss.tailVerdict table) then 1 else 0

/-- Verdicts are counted segment by segment. -/
theorem countP_verdicts (p : Verdict → Bool) (table : Table) (ss : Segments) :
    (ss.verdicts table).countP (fun v => p v.2) = ss.count p table := by
  rw [verdicts, List.countP_append, List.countP_map, List.countP_singleton]
  rfl

end Segments

/-- The reflected text is that of the reflected segments. -/
theorem text_reflectText (table : Table) (t : Text) :
    (reflectText table t).text = ((Segments.read t).reflect table).text := rfl

/-- The declarations of a text are those of its segments. -/
theorem declarations_reflectText (table : Table) (t : Text) :
    (reflectText table t).declarations = (Segments.read t).count Verdict.isDeclaration table :=
  Segments.countP_verdicts Verdict.isDeclaration table (Segments.read t)

/-- A verdict is a change exactly if it is reported as one. -/
theorem isSome_ofVerdict (v : Text × Verdict) : (Change.ofVerdict v).isSome = v.2.isChange := by
  obtain ⟨body, _ | _ | ⟨rule, text⟩⟩ := v <;> rfl

/-- The substitutions in a text are the changes of its segments. -/
theorem substitutions_reflectText (table : Table) (t : Text) :
    (reflectText table t).substitutions = (Segments.read t).count Verdict.isChange table := by
  have hlen : (reflectText table t).substitutions
      = ((Segments.read t).verdicts table).countP (fun v => (Change.ofVerdict v).isSome) :=
    List.length_filterMap_eq_countP
  have hchange : (fun v : Text × Verdict => (Change.ofVerdict v).isSome) = fun v => v.2.isChange :=
    funext isSome_ofVerdict
  rw [hlen, hchange, Segments.countP_verdicts]

/-! ### Reflecting texts one after the other -/

theorem Verdict.ofBody_nil (table : Table) : Verdict.ofBody table [] = .other := by
  have hread : Declaration.read? [] = none := by
    simp [Declaration.read?, Declaration.trivia, Declaration.hackOf]
  rw [Verdict.ofBody, hread]

namespace Segments

variable {ss tt : Segments}

theorem tailVerdict_of_tail_nil (h : ss.tail = []) (table : Table) :
    ss.tailVerdict table = .other := by
  rw [tailVerdict, h, Verdict.ofBody_nil, ite_self]

/-- What comes before all the blocks of a text have been closed does not matter for what may be declared
behind its last delimiter, if it has a brace. -/
theorem tailMayDeclare_append (hdepth : ss.depth = 0) (hbrace : tt.hasBrace = true) :
    tailMayDeclare ⟨ss.closed ++ tt.closed, tt.tail⟩ = tt.tailMayDeclare := by
  have hd : depth ⟨ss.closed ++ tt.closed, tt.tail⟩ = tt.depth := by
    rw [depth, List.map_append, List.foldl_append]
    show ((tt.closed.map Segment.closer).foldl depthAfter ss.depth) = tt.depth
    rw [hdepth, depth]
  have hb : hasBrace ⟨ss.closed ++ tt.closed, tt.tail⟩ = true := by
    rw [hasBrace, List.any_append]
    show (ss.hasBrace || tt.hasBrace) = true
    rw [hbrace, Bool.or_true]
  rw [tailMayDeclare, tailMayDeclare, hd, hb, hbrace]

/-- A tail is judged alike behind segments that leave no brace open. -/
theorem tailVerdict_append (hdepth : ss.depth = 0) (hbrace : tt.hasBrace = true) (table : Table) :
    tailVerdict table ⟨ss.closed ++ tt.closed, tt.tail⟩ = tt.tailVerdict table := by
  rw [tailVerdict, tailVerdict, tailMayDeclare_append hdepth hbrace]

/-- Segments that leave no brace open are reflected on their own. -/
theorem text_reflect_append (htail : ss.tail = []) (hdepth : ss.depth = 0)
    (hbrace : tt.hasBrace = true) (table : Table) :
    (reflect table ⟨ss.closed ++ tt.closed, tt.tail⟩).text
      = (ss.reflect table).text ++ (tt.reflect table).text := by
  have hnil : (ss.reflect table).tail = [] := by
    rw [reflect, tailVerdict_of_tail_nil htail, htail]
    rfl
  rw [text, text, text, hnil, List.append_nil, ← List.append_assoc, ← List.flatMap_append]
  rw [reflect, reflect, reflect, List.map_append, tailVerdict_append hdepth hbrace]

/-- Segments that leave no brace open are counted on their own. -/
theorem count_append {p : Verdict → Bool} (hp : p .other = false) (htail : ss.tail = [])
    (hdepth : ss.depth = 0) (hbrace : tt.hasBrace = true) (table : Table) :
    count p table ⟨ss.closed ++ tt.closed, tt.tail⟩ = ss.count p table + tt.count p table := by
  rw [count, count, count, tailVerdict_append hdepth hbrace, tailVerdict_of_tail_nil htail, hp,
    List.countP_append, Nat.add_assoc]
  rfl

end Segments

/-- **Texts are reflected one after the other** if the first one ends in a closing brace outside all
blocks, and the second one has a brace. -/
theorem reflectText_append {s t : Text} (hend : s.getLast? = some closeBrace)
    (hdepth : (Segments.read s).depth = 0) (hbrace : (Segments.read t).hasBrace = true)
    (table : Table) :
    (reflectText table (s ++ t)).text = (reflectText table s).text ++ (reflectText table t).text ∧
    (reflectText table (s ++ t)).declarations
      = (reflectText table s).declarations + (reflectText table t).declarations ∧
    (reflectText table (s ++ t)).substitutions
      = (reflectText table s).substitutions + (reflectText table t).substitutions := by
  have htail : (Segments.read s).tail = [] := by
    obtain ⟨u, rfl⟩ := List.getLast?_eq_some_iff.mp hend
    exact Segments.tail_read_append_delimiter rfl u
  have hread : Segments.read (s ++ t)
      = ⟨(Segments.read s).closed ++ (Segments.read t).closed, (Segments.read t).tail⟩ := by
    rw [Segments.read_append, Segments.join_of_tail_nil htail]
  refine ⟨?_, ?_, ?_⟩
  · rw [text_reflectText, hread, Segments.text_reflect_append htail hdepth hbrace]
    rfl
  · rw [declarations_reflectText, declarations_reflectText, declarations_reflectText, hread,
      Segments.count_append rfl htail hdepth hbrace]
  · rw [substitutions_reflectText, substitutions_reflectText, substitutions_reflectText, hread,
      Segments.count_append rfl htail hdepth hbrace]

end BidiSheet
