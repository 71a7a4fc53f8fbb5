import BidiSheet.Settings
import Mathlib

/-!
# The grammar of the arguments

The arguments of the command line are a sequence of *items*: options with a value, flags, and roots. The same
arguments are never two sequences of items (`Settings.argsOf_injective`). Arguments that do not give settings have a
first argument that offends (`Settings.OffendsAt`), or they are items that lack something as a whole.

* `Settings.ofArgs_exact`: which arguments are accepted, what settings they give, and with which fault all others are
  refused. The items of accepted arguments may be put in another order, as long as the suffixes and the extensions
  among them stay in theirs.
-/

namespace BidiSheet

namespace Settings

/-! ### Items -/

/-- Whether an argument can be a root: a lone hyphen, or any text that does not begin with one. -/
def isRoot (arg : Text) : Bool := arg = ['-'] || arg.head? ≠ some '-'

/-- An item of the arguments. -/
inductive Item where
  /-- A suffix. Any text is one, even if it looks like an option. -/
  | suffix (value : Text)
  /-- An extension, of which the dots at its front do not count. -/
  | extension (value : Text)
  | leftRight
  | ltrRtl
  | root (arg : Text) (h : isRoot arg = true)
  deriving DecidableEq

namespace Item

/-- The arguments that an item is written as. -/
def args : Item → List Text
  | .suffix value => ["--suffix".toList, value]
  | .extension value => ["--ext".toList, value]
  | .leftRight => ["--url-left-right".toList]
  | .ltrRtl => ["--url-ltr-rtl".toList]
  | .root arg _ => [arg]

/-- The suffix that an item gives. -/
def suffix? : Item → Option Text
  | .suffix value => some value
  | _ => none

/-- The extension that an item gives. -/
def extension? : Item → Option Text
  | .extension value => some value
  | _ => none

/-- The root that an item gives. -/
def root? : Item → Option Text
  | .root arg _ => some arg
  | _ => none

end Item

/-- The arguments that some items are written as. -/
def argsOf (items : List Item) : List Text := items.flatMap Item.args

/-- All suffixes that are given. -/
def suffixes (items : List Item) : List Text := items.filterMap Item.suffix?

/-- All extensions that are given. -/
def extensions (items : List Item) : List Text := items.filterMap Item.extension?

/-- All roots that are given. -/
def roots (items : List Item) : List Text := items.filterMap Item.root?

/-- What some items say, the last of several suffixes, extensions or roots being the one that counts. -/
def Draft.ofItems (items : List Item) : Draft where
  root := (roots items).getLast?.map Path.ofText
  suffix := (suffixes items).getLast?.getD "-rtl".toList
  extension := ((extensions items).getLast?.map (·.dropWhile (· = '.'))).getD "css".toList
  urls := ⟨.leftRight ∈ items, .ltrRtl ∈ items⟩

/-! ### Arguments that offend -/

/-- The options that there are. -/
def options : List Text :=
  ["-h".toList, "--help".toList, "--suffix".toList, "--ext".toList, "--url-left-right".toList,
    "--url-ltr-rtl".toList]

/-- An argument offends behind some items and in front of the arguments `rest`: it asks for help, it is an option that
lacks its value, it is no option that there is, or it is a second root. -/
inductive Offends (items : List Item) : Text → List Text → Fault → Prop where
  | help {arg : Text} {rest : List Text} (h : arg = "-h".toList ∨ arg = "--help".toList) :
      Offends items arg rest .helpRequested
  | noValue {arg : Text} (h : arg = "--suffix".toList ∨ arg = "--ext".toList) :
      Offends items arg [] (.missingValue arg)
  | unknown {arg : Text} {rest : List Text} (hroot : isRoot arg = false) (h : arg ∉ options) :
      Offends items arg rest (.unknownOption arg)
  | second {arg : Text} {rest : List Text} (hroot : isRoot arg = true) (h : roots items ≠ []) :
      Offends items arg rest (.unexpectedArgument arg)

/-- The argument at place `i` offends. -/
def OffendsAt (args : List Text) (i : Nat) (fault : Fault) : Prop :=
  ∃ items arg rest, args = argsOf items ++ arg :: rest ∧ i = (argsOf items).length ∧
    Offends items arg rest fault

/-! ### Items and drafts -/

@[simp] theorem argsOf_nil : argsOf [] = [] := rfl

/-- The arguments of items follow one another. -/
@[simp] theorem argsOf_cons (item : Item) (items : List Item) :
    argsOf (item :: items) = item.args ++ argsOf items := rfl

/-- The arguments of two lists of items follow one another. -/
@[simp] theorem argsOf_append (items more : List Item) :
    argsOf (items ++ more) = argsOf items ++ argsOf more :=
  List.flatMap_append

/-- The roots of two lists of items follow one another. -/
@[simp] theorem roots_append (items more : List Item) : roots (items ++ more) = roots items ++ roots more :=
  List.filterMap_append

/-- The root of the last item is the last one. -/
theorem roots_concat (items : List Item) (item : Item) :
    roots (items ++ [item]) = roots items ++ item.root?.toList := by
  rw [roots_append]
  cases item <;> rfl

/-- A draft to which an item has been added. -/
def Draft.add (draft : Draft) : Item → Draft
  | .suffix value => { draft with suffix := value }
  | .extension value => { draft with extension := value.dropWhile (· = '.') }
  | .leftRight => { draft with urls := { draft.urls with leftRight := true } }
  | .ltrRtl => { draft with urls := { draft.urls with ltrRtl := true } }
  | .root arg _ => { draft with root := some (.ofText arg) }

/-- The last item is added to the draft last. -/
theorem Draft.ofItems_concat (items : List Item) (item : Item) :
    Draft.ofItems (items ++ [item]) = (Draft.ofItems items).add item := by
  cases item <;> simp [Draft.ofItems, Draft.add, roots, suffixes, extensions, Item.root?, Item.suffix?, Item.extension?]

/-- A root is no option. -/
theorem options_of_isRoot {arg : Text} (h : isRoot arg = true) : arg ∉ options := by
  intro hmem
  have hall : ∀ arg ∈ options, isRoot arg = false := by decide
  rw [hall arg hmem] at h
  cases h

/-- Reading an argument that is no option. -/
theorem readArgs_of_not_option {arg : Text} (h : arg ∉ options) (draft : Draft) (rest : List Text) :
    readArgs draft (arg :: rest) =
      if isRoot arg = false then .error (.unknownOption arg)
      else if draft.root.isNone then readArgs { draft with root := some (.ofText arg) } rest
      else .error (.unexpectedArgument arg) := by
  have hroot : isRoot arg = false ↔ arg.head? = some '-' ∧ arg ≠ ['-'] := by simp [isRoot, and_comm]
  simp only [options, List.mem_cons, not_or] at h
  obtain ⟨h1, h2, h3, h4, h5, h6, -⟩ := h
  rw [readArgs.eq_def]
  simp only [h1, h2, h3, h4, h5, h6, or_false, if_false, hroot]

/-- **Reading an item adds it to the draft**, unless it is a second root. -/
theorem readArgs_item {draft : Draft} {item : Item} (h : item.root? = none ∨ draft.root = none)
    (rest : List Text) : readArgs draft (item.args ++ rest) = readArgs (draft.add item) rest := by
  cases item with
  | suffix value =>
    show readArgs draft ("--suffix".toList :: value :: rest) = _
    rw [readArgs]
    simp [Draft.add]
  | extension value =>
    show readArgs draft ("--ext".toList :: value :: rest) = _
    rw [readArgs]
    simp [Draft.add]
  | leftRight =>
    show readArgs draft ("--url-left-right".toList :: rest) = _
    rw [readArgs.eq_def]
    simp [Draft.add]
  | ltrRtl =>
    show readArgs draft ("--url-ltr-rtl".toList :: rest) = _
    rw [readArgs.eq_def]
    simp [Draft.add]
  | root arg harg =>
    have hnone : draft.root.isNone = true := by
      rw [h.resolve_left (Option.some_ne_none arg), Option.isNone_none]
    show readArgs draft (arg :: rest) = _
    rw [readArgs_of_not_option (options_of_isRoot harg), if_neg (by simp [harg]), if_pos hnone]
    rfl

/-- Behind items with at most one root, reading goes on with what they say. -/
theorem readArgs_ofItems {items : List Item} (h : (roots items).length ≤ 1) (rest : List Text) :
    readArgs {} (argsOf items ++ rest) = readArgs (Draft.ofItems items) rest := by
  induction items using List.reverseRecOn generalizing rest with
  | nil => rfl
  | append_singleton items item ih =>
    rw [roots_concat, List.length_append] at h
    have hroot : item.root? = none ∨ (Draft.ofItems items).root = none := by
      cases hitem : item.root? with
      | none => exact .inl rfl
      | some arg =>
        rw [hitem, Option.toList_some, List.length_singleton] at h
        have hnone : roots items = [] := List.eq_nil_of_length_eq_zero (by omega)
        exact .inr (by simp [Draft.ofItems, hnone])
    rw [argsOf_append, List.append_assoc, ih (by omega), argsOf_cons, argsOf_nil, List.append_nil,
      readArgs_item hroot, Draft.ofItems_concat]

/-! ### The first argument that offends -/

/-- Reading stops at an argument that offends. -/
theorem readArgs_of_offends {items : List Item} {arg : Text} {rest : List Text} {fault : Fault}
    (h : Offends items arg rest fault) : readArgs (Draft.ofItems items) (arg :: rest) = .error fault := by
  cases h with
  | help h =>
    rw [readArgs.eq_def]
    simp only [if_pos h]
  | noValue h =>
    rw [readArgs.eq_def]
    rcases h with rfl | rfl <;> simp
  | unknown hroot h => rw [readArgs_of_not_option h, if_pos hroot]
  | second hroot h =>
    have hsome : (Draft.ofItems items).root.isNone = false := by simp [Draft.ofItems, h]
    rw [readArgs_of_not_option (options_of_isRoot hroot), if_neg (by simp [hroot]), if_neg (by simp [hsome])]

/-- Arguments begin with an item, or with an argument that offends wherever it stands. -/
theorem item_or_offends (arg : Text) (rest : List Text) :
    (∃ (item : Item) (r : List Text), arg :: rest = item.args ++ r) ∨
      ∃ fault, ∀ items, Offends items arg rest fault := by
  cases hroot : isRoot arg with
  | true => exact .inl ⟨.root arg hroot, rest, rfl⟩
  | false =>
    by_cases hoption : arg ∈ options
    · simp only [options, List.mem_cons, List.not_mem_nil, or_false] at hoption
      rcases hoption with h | h | h | h | rfl | rfl
      · exact .inr ⟨_, fun items => .help (.inl h)⟩
      · exact .inr ⟨_, fun items => .help (.inr h)⟩
      · cases rest with
        | nil => exact .inr ⟨_, fun items => .noValue (.inl h)⟩
        | cons value rest => exact .inl ⟨.suffix value, rest, by rw [h]; rfl⟩
      · cases rest with
        | nil => exact .inr ⟨_, fun items => .noValue (.inr h)⟩
        | cons value rest => exact .inl ⟨.extension value, rest, by rw [h]; rfl⟩
      · exact .inl ⟨.leftRight, rest, rfl⟩
      · exact .inl ⟨.ltrRtl, rest, rfl⟩
    · exact .inr ⟨_, fun items => .unknown hroot hoption⟩

/-- An item takes at least one argument. -/
theorem length_lt_of_item {item : Item} {arg : Text} {rest r : List Text}
    (h : arg :: rest = item.args ++ r) : r.length < (arg :: rest).length := by
  rw [h, List.length_append]
  cases item <;> simp [Item.args]

/-- Behind items with at most one root, arguments are items up to their end, or up to an argument that offends. -/
theorem exists_items_behind : ∀ (args : List Text) (before : List Item), (roots before).length ≤ 1 →
    ∃ items, (roots (before ++ items)).length ≤ 1 ∧ (args = argsOf items ∨
      ∃ arg rest fault, args = argsOf items ++ arg :: rest ∧ Offends (before ++ items) arg rest fault)
  | [], before, h => ⟨[], by rwa [List.append_nil], .inl rfl⟩
  | arg :: rest, before, h => by
    rcases item_or_offends arg rest with ⟨item, r, hitem⟩ | ⟨fault, hoffends⟩
    · by_cases hroots : (roots (before ++ [item])).length ≤ 1
      · have hlt := length_lt_of_item hitem
        obtain ⟨items, hroots', hargs⟩ := exists_items_behind r (before ++ [item]) hroots
        rw [List.append_assoc, List.singleton_append] at hroots' hargs
        refine ⟨item :: items, hroots', ?_⟩
        rw [hitem, argsOf_cons]
        rcases hargs with rfl | ⟨arg', rest', fault, rfl, hoffends⟩
        · exact .inl rfl
        · exact .inr ⟨arg', rest', fault, (List.append_assoc _ _ _).symm, hoffends⟩
      · -- the item is a second root
        rw [roots_concat] at hroots
        cases item with
        | root arg' harg =>
          obtain ⟨rfl, rfl⟩ := List.cons.inj hitem
          refine ⟨[], by rwa [List.append_nil], .inr ⟨arg, rest, _, rfl, .second harg fun hnil => ?_⟩⟩
          rw [List.append_nil] at hnil
          rw [hnil] at hroots
          exact hroots (Nat.le_refl 1)
        | suffix | extension | leftRight | ltrRtl => exact absurd (by simpa [Item.root?] using h) hroots
    · exact ⟨[], by rwa [List.append_nil], .inr ⟨arg, rest, fault, rfl, hoffends _⟩⟩
termination_by args => args.length
decreasing_by exact hlt

/-- Arguments are items up to the first that offends. -/
theorem exists_items (args : List Text) :
    ∃ items, (roots items).length ≤ 1 ∧ (args = argsOf items ∨
      ∃ arg rest fault, args = argsOf items ++ arg :: rest ∧ Offends items arg rest fault) :=
  exists_items_behind args [] (Nat.zero_le 1)

/-! ### The same arguments are never two sequences of items -/

/-- An item can be read off its arguments, whatever follows. -/
theorem Item.args_append_inj {item item' : Item} {r r' : List Text} (h : item.args ++ r = item'.args ++ r') :
    item = item' ∧ r = r' := by
  -- no root is written like an option
  have hroot : ∀ {arg : Text}, isRoot arg = true → ∀ option ∈ options, arg ≠ option := by
    rintro arg harg option hoption rfl
    exact options_of_isRoot harg hoption
  cases item with
  | root arg harg =>
    have hne := hroot harg
    simp only [options, List.forall_mem_cons] at hne
    cases item' <;> simp_all [Item.args]
  | suffix | extension | leftRight | ltrRtl =>
    cases item' with
    | root arg harg => exact absurd (List.cons.inj h).1.symm (hroot harg _ (by decide))
    | suffix | extension | leftRight | ltrRtl => simp_all [Item.args]

/-- Of two sequences of items at the front of the same arguments, the longer one begins with the other. -/
theorem exists_append_of_argsOf {items items' : List Item} {r r' : List Text}
    (h : argsOf items ++ r = argsOf items' ++ r') (hlen : (argsOf items').length ≤ (argsOf items).length) :
    ∃ more, items = items' ++ more ∧ r' = argsOf more ++ r := by
  induction items' generalizing items with
  | nil => exact ⟨items, rfl, h.symm⟩
  | cons item' items' ih =>
    cases items with
    | nil =>
      have hpos : 0 < item'.args.length := by cases item' <;> exact Nat.succ_pos _
      rw [argsOf_cons, List.length_append] at hlen
      simp only [argsOf_nil, List.length_nil] at hlen
      omega
    | cons item items =>
      rw [argsOf_cons, argsOf_cons, List.append_assoc, List.append_assoc] at h
      obtain ⟨rfl, hrest⟩ := Item.args_append_inj h
      rw [argsOf_cons, argsOf_cons, List.length_append, List.length_append] at hlen
      obtain ⟨more, rfl, hr'⟩ := ih hrest (by omega)
      exact ⟨more, rfl, hr'⟩

/-- Items can be read off their arguments. -/
theorem argsOf_injective : Function.Injective argsOf := by
  intro items items' h
  have happend : argsOf items ++ [] = argsOf items' ++ [] := by rw [h]
  obtain ⟨more, rfl, hnil⟩ := exists_append_of_argsOf happend (by rw [h])
  rw [List.append_nil, eq_comm] at hnil
  cases more with
  | nil => rw [List.append_nil]
  | cons item more => cases item <;> cases hnil

/-- An argument that begins an item does not offend, unless the item is a second root. -/
theorem not_offends_of_item {items : List Item} {item : Item} {arg : Text} {rest r : List Text} {fault : Fault}
    (hroots : (roots (items ++ [item])).length ≤ 1) (h : arg :: rest = item.args ++ r) :
    ¬ Offends items arg rest fault := by
  cases item with
  | root arg' harg =>
    obtain ⟨rfl, rfl⟩ := List.cons.inj h
    have hoption := options_of_isRoot harg
    rintro (hhelp | hvalue | ⟨hroot, -⟩ | ⟨-, hsecond⟩)
    · exact hoption (by rcases hhelp with rfl | rfl <;> decide)
    · exact hoption (by rcases hvalue with rfl | rfl <;> decide)
    · rw [harg] at hroot
      cases hroot
    · have hpos := List.length_pos_of_ne_nil hsecond
      rw [roots_concat, List.length_append, Item.root?, Option.toList_some, List.length_singleton] at hroots
      omega
  | suffix | extension =>
    obtain ⟨rfl, rfl⟩ := List.cons.inj h
    rintro (hhelp | - | ⟨-, hunknown⟩ | ⟨hroot, -⟩)
    · revert hhelp
      decide
    · exact hunknown (by decide)
    · exact absurd hroot (by decide)
  | leftRight | ltrRtl =>
    obtain ⟨rfl, rfl⟩ := List.cons.inj h
    rintro (hhelp | hvalue | ⟨-, hunknown⟩ | ⟨hroot, -⟩)
    · revert hhelp
      decide
    · revert hvalue
      decide
    · exact hunknown (by decide)
    · exact absurd hroot (by decide)

/-- **Nothing offends within items with at most one root.** -/
theorem not_offendsAt_of_lt {items : List Item} (hroots : (roots items).length ≤ 1) (r : List Text) {j : Nat}
    (hj : j < (argsOf items).length) (fault : Fault) : ¬ OffendsAt (argsOf items ++ r) j fault := by
  rintro ⟨items', arg, rest, heq, rfl, hoffends⟩
  obtain ⟨more, rfl, hrest⟩ := exists_append_of_argsOf heq (Nat.le_of_lt hj)
  cases more with
  | nil =>
    rw [List.append_nil] at hj
    exact Nat.lt_irrefl _ hj
  | cons item more =>
    rw [argsOf_cons, List.append_assoc] at hrest
    refine not_offends_of_item ?_ hrest hoffends
    rw [List.append_cons, roots_append _ more, List.length_append] at hroots
    omega

/-! ### What arguments give -/

/-- Items with at most one root are read to their end. -/
theorem ofArgs_argsOf {items : List Item} (hroots : (roots items).length ≤ 1) :
    ofArgs (argsOf items) = (Draft.ofItems items).complete := by
  have hread := readArgs_ofItems hroots []
  rw [List.append_nil, readArgs] at hread
  rw [ofArgs, hread]
  rfl

/-- An argument that offends behind such items decides. -/
theorem ofArgs_of_offends {items : List Item} (hroots : (roots items).length ≤ 1) {arg : Text} {rest : List Text}
    {fault : Fault} (h : Offends items arg rest fault) :
    ofArgs (argsOf items ++ arg :: rest) = .error fault := by
  rw [ofArgs, readArgs_ofItems hroots, readArgs_of_offends h]
  rfl

/-- A draft has an empty suffix if the last one that was given is empty. -/
theorem suffix_ofItems_eq_nil_iff {items : List Item} :
    (Draft.ofItems items).suffix = [] ↔ (suffixes items).getLast? = some [] := by
  show (suffixes items).getLast?.getD "-rtl".toList = [] ↔ _
  cases (suffixes items).getLast? with
  | none => decide
  | some s => rw [Option.getD_some, Option.some_inj]

/-- The settings that some items give, their only root being `root`. -/
theorem complete_ofItems_eq_ok_iff {items : List Item} (hroots : (roots items).length ≤ 1) {settings : Settings} :
    (Draft.ofItems items).complete = .ok settings ↔
      ∃ root, roots items = [root] ∧ (suffixes items).getLast? ≠ some [] ∧
        settings = ⟨.ofText root, (Draft.ofItems items).suffix, (Draft.ofItems items).extension,
          (Draft.ofItems items).urls⟩ := by
  rw [Draft.complete]
  split
  next hsuffix => simp [suffix_ofItems_eq_nil_iff.mp hsuffix]
  next hsuffix =>
    rw [suffix_ofItems_eq_nil_iff] at hsuffix
    match hitems : roots items with
    | [] => simp [Draft.ofItems, hitems]
    | [root] => simp [Draft.ofItems, hitems, hsuffix, eq_comm]
    | root :: root' :: more => simp [hitems] at hroots

/-- When items with at most one root do not make settings, and why. -/
theorem complete_ofItems_eq_error_iff {items : List Item} (hroots : (roots items).length ≤ 1) {fault : Fault} :
    (Draft.ofItems items).complete = .error fault ↔
      (suffixes items).getLast? = some [] ∧ fault = .emptySuffix ∨
      (suffixes items).getLast? ≠ some [] ∧ roots items = [] ∧ fault = .missingRoot := by
  rw [Draft.complete]
  split
  next hsuffix => simp [suffix_ofItems_eq_nil_iff.mp hsuffix, eq_comm (a := Fault.emptySuffix)]
  next hsuffix =>
    rw [suffix_ofItems_eq_nil_iff] at hsuffix
    match hitems : roots items with
    | [] => simp [Draft.ofItems, hitems, hsuffix, eq_comm]
    | [root] => simp [Draft.ofItems, hitems, hsuffix]
    | root :: root' :: more => simp [hitems] at hroots

/-- Nothing offends in items with at most one root. -/
theorem not_offendsAt_argsOf {items : List Item} (hroots : (roots items).length ≤ 1) (i : Nat) (fault : Fault) :
    ¬ OffendsAt (argsOf items) i fault := by
  intro h
  obtain ⟨items', arg, rest, hargs, hi, -⟩ := id h
  have hlt : i < (argsOf items).length := by
    rw [hargs, List.length_append, hi, List.length_cons]
    omega
  rw [← List.append_nil (argsOf items)] at h
  exact not_offendsAt_of_lt hroots [] hlt fault h

/-- When arguments make settings, and which. -/
theorem ofArgs_eq_ok_iff {args : List Text} {settings : Settings} :
    ofArgs args = .ok settings ↔
      ∃ items root, args = argsOf items ∧ roots items = [root] ∧ (suffixes items).getLast? ≠ some [] ∧
        settings = ⟨.ofText root, (Draft.ofItems items).suffix, (Draft.ofItems items).extension,
          (Draft.ofItems items).urls⟩ := by
  constructor
  · intro h
    obtain ⟨items, hroots, rfl | ⟨arg, rest, fault, rfl, hoffends⟩⟩ := exists_items args
    · rw [ofArgs_argsOf hroots] at h
      obtain ⟨root, hsettings⟩ := (complete_ofItems_eq_ok_iff hroots).mp h
      exact ⟨items, root, rfl, hsettings⟩
    · rw [ofArgs_of_offends hroots hoffends] at h
      cases h
  · rintro ⟨items, root, rfl, hone, hsuffix, hsettings⟩
    have hroots : (roots items).length ≤ 1 := by rw [hone, List.length_singleton]
    rw [ofArgs_argsOf hroots, complete_ofItems_eq_ok_iff hroots]
    exact ⟨root, hone, hsuffix, hsettings⟩

/-- The first argument that offends decides. -/
theorem ofArgs_of_first {args : List Text} {i : Nat} {fault : Fault} (h : OffendsAt args i fault)
    (hfirst : ∀ j < i, ∀ other, ¬ OffendsAt args j other) : ofArgs args = .error fault := by
  obtain ⟨items, hroots, rfl | ⟨arg, rest, fault', rfl, hoffends⟩⟩ := exists_items args
  · exact absurd h (not_offendsAt_argsOf hroots i fault)
  · obtain ⟨items', arg', rest', hargs, rfl, hoffends'⟩ := h
    have hle : (argsOf items').length ≤ (argsOf items).length := by
      by_contra hlt
      exact hfirst _ (Nat.not_le.mp hlt) fault' ⟨items, arg, rest, rfl, rfl, hoffends⟩
    have hge : (argsOf items).length ≤ (argsOf items').length := by
      by_contra hlt
      exact not_offendsAt_of_lt hroots (arg :: rest) (Nat.not_le.mp hlt) fault
        ⟨items', arg', rest', hargs, rfl, hoffends'⟩
    have hsame : items' = items := argsOf_injective (List.append_inj_left hargs.symm (by omega))
    subst hsame
    obtain ⟨rfl, rfl⟩ := List.cons.inj (List.append_cancel_left hargs)
    rw [ofArgs_of_offends hroots hoffends']

/-- When arguments are refused, and why. -/
theorem ofArgs_eq_error_iff {args : List Text} {fault : Fault} :
    ofArgs args = .error fault ↔
      (∃ i, OffendsAt args i fault ∧ ∀ j < i, ∀ other, ¬ OffendsAt args j other) ∨
      (∀ i other, ¬ OffendsAt args i other) ∧ ∃ items, args = argsOf items ∧
        ((suffixes items).getLast? = some [] ∧ fault = .emptySuffix ∨
          (suffixes items).getLast? ≠ some [] ∧ roots items = [] ∧ fault = .missingRoot) := by
  obtain ⟨items, hroots, hargs⟩ := exists_items args
  constructor
  · intro h
    rcases hargs with rfl | ⟨arg, rest, fault', rfl, hoffends⟩
    · rw [ofArgs_argsOf hroots] at h
      exact .inr ⟨not_offendsAt_argsOf hroots, items, rfl, (complete_ofItems_eq_error_iff hroots).mp h⟩
    · rw [ofArgs_of_offends hroots hoffends] at h
      cases h
      exact .inl ⟨_, ⟨items, arg, rest, rfl, rfl, hoffends⟩, fun j hj => not_offendsAt_of_lt hroots _ hj⟩
  · rintro (⟨i, h, hfirst⟩ | ⟨hnone, items', rfl, hcomplete⟩)
    · exact ofArgs_of_first h hfirst
    · rcases hargs with hsame | ⟨arg, rest, fault', hargs, hoffends⟩
      · rw [argsOf_injective hsame] at hcomplete ⊢
        rw [ofArgs_argsOf hroots]
        exact (complete_ofItems_eq_error_iff hroots).mpr hcomplete
      · exact absurd ⟨items, arg, rest, hargs, rfl, hoffends⟩ (hnone _ fault')

/-- Items in another order say the same, if there is at most one root and the suffixes and the extensions stay in
their order. -/
theorem Draft.ofItems_of_perm {items items' : List Item} (h : items.Perm items')
    (hsuffixes : suffixes items = suffixes items') (hextensions : extensions items = extensions items')
    (hroots : (roots items).length ≤ 1) : Draft.ofItems items = Draft.ofItems items' := by
  have hperm : (roots items).Perm (roots items') := h.filterMap _
  have hsame : roots items = roots items' := by
    match hitems : roots items with
    | [] => rw [hitems] at hperm; exact hperm.nil_eq
    | [root] => rw [hitems] at hperm; exact hperm.singleton_eq
    | root :: root' :: more => simp [hitems] at hroots
  simp only [Draft.ofItems, hsame, hsuffixes, hextensions, h.mem_iff]

/-- **Arguments are accepted exactly if they are items with one root and no empty suffix at last.** The settings are
those that the items say; items in another order give the same, as long as the suffixes and the extensions stay in
their order. Other arguments are refused with the fault of the first one that offends. If none offends, an empty suffix
counts before a missing root. -/
theorem ofArgs_exact (args : List Text) :
    (∀ settings, ofArgs args = .ok settings ↔
      ∃ items root, args = argsOf items ∧ roots items = [root] ∧ (suffixes items).getLast? ≠ some [] ∧
        settings =
          { root := .ofText root
            suffix := (suffixes items).getLast?.getD "-rtl".toList
            extension := ((extensions items).getLast?.map (·.dropWhile (· = '.'))).getD "css".toList
            urls := ⟨.leftRight ∈ items, .ltrRtl ∈ items⟩ }) ∧
    (∀ fault, ofArgs args = .error fault ↔
      (∃ i, OffendsAt args i fault ∧ ∀ j < i, ∀ other, ¬ OffendsAt args j other) ∨
      (∀ i other, ¬ OffendsAt args i other) ∧ ∃ items, args = argsOf items ∧
        ((suffixes items).getLast? = some [] ∧ fault = .emptySuffix ∨
          (suffixes items).getLast? ≠ some [] ∧ roots items = [] ∧ fault = .missingRoot)) ∧
    (∀ items items', argsOf items = args → argsOf items' = args → items = items') ∧
    (∀ items items', argsOf items = args → items.Perm items' → suffixes items = suffixes items' →
      extensions items = extensions items' → (roots items).length ≤ 1 → ofArgs (argsOf items') = ofArgs args) := by
  refine ⟨fun settings => ofArgs_eq_ok_iff, fun fault => ofArgs_eq_error_iff, ?_, ?_⟩
  · intro items items' h h'
    exact argsOf_injective (h.trans h'.symm)
  · rintro items items' rfl hperm hsuffixes hextensions hroots
    have hroots' : (roots items').length ≤ 1 := by
      rwa [roots, ← (hperm.filterMap Item.root?).length_eq]
    rw [ofArgs_argsOf hroots, ofArgs_argsOf hroots', Draft.ofItems_of_perm hperm hsuffixes hextensions hroots]

/-- Options as values, a lone hyphen as the root, and an extension with dots in front. Of the second list, the argument
`b` offends first, although the suffix is empty and help is asked for behind it. -/
theorem ofArgs_exact_reordered :
    let items : List Item := [.suffix "-h".toList, .extension [], .root ['-'] rfl, .suffix "--ext".toList, .ltrRtl,
      .extension "..a.b".toList]
    let items' : List Item := [.ltrRtl, .extension [], .suffix "-h".toList, .extension "..a.b".toList,
      .suffix "--ext".toList, .root ['-'] rfl]
    items.Perm items' ∧ suffixes items = suffixes items' ∧ extensions items = extensions items' ∧
      (roots items).length ≤ 1 ∧ ofArgs (argsOf items') = ofArgs (argsOf items) ∧
      ofArgs (argsOf items) = .ok ⟨.ofString "-", "--ext".toList, "a.b".toList, ⟨false, true⟩⟩ ∧
      ofArgs ["a".toList, "--suffix".toList, [], "b".toList, "-h".toList]
        = .error (.unexpectedArgument "b".toList) := by
  intro items items'
  refine ⟨?perm, ?suffixes, ?extensions, ?roots,
    (ofArgs_exact (argsOf items)).2.2.2 items items' rfl ?perm ?suffixes ?extensions ?roots, ?_, ?_⟩
  all_goals decide +kernel

end Settings

end BidiSheet
