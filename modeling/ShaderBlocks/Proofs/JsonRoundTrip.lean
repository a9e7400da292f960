import Mathlib.Data.List.Forall2
import Mathlib.Data.String.Basic
import ShaderBlocks.Proofs.JsonScan

/-!
# Written values are read again

A value is read from its compact text as it was written if three things hold: the keys of every
object ascend, since reading puts them in order; all numbers are whole and fit into 64 bits; and
arrays and objects are not nested deeper than the reader has room for. The limits on the numbers of
elements and fields are never reached, since a text has no more of them than characters.
-/

namespace ShaderBlocks.Json

/-! ## Values inside values -/

mutual

/-- How deep arrays and objects are nested. -/
def depth : Json → Nat
  | .array elements => depthOfElements elements + 1
  | .object fields => depthOfFields fields + 1
  | .null => 0
  | .bool _ => 0
  | .number _ => 0
  | .string _ => 0

/-- How deep arrays and objects are nested in some values. -/
def depthOfElements : List Json → Nat
  | [] => 0
  | value :: rest => max (depth value) (depthOfElements rest)

/-- How deep arrays and objects are nested in the values of some fields. -/
def depthOfFields : List (String × Json) → Nat
  | [] => 0
  | (_, value) :: rest => max (depth value) (depthOfFields rest)

end

mutual

/-- A test passes for a value and for all values inside it. -/
def every (test : Json → Bool) : Json → Bool
  | .array elements => test (.array elements) && everyElement test elements
  | .object fields => test (.object fields) && everyField test fields
  | .null => test .null
  | .bool value => test (.bool value)
  | .number value => test (.number value)
  | .string text => test (.string text)

/-- A test passes for some values and for all values inside them. -/
def everyElement (test : Json → Bool) : List Json → Bool
  | [] => true
  | value :: rest => every test value && everyElement test rest

/-- A test passes for the values of some fields and for all values inside them. -/
def everyField (test : Json → Bool) : List (String × Json) → Bool
  | [] => true
  | (_, value) :: rest => every test value && everyField test rest

end

/-- The keys of an object ascend. -/
def keysAscend : Json → Bool
  | .object fields => decide ((fields.map (·.1)).Pairwise (· < ·))
  | _ => true

/-- A number is whole and fits into 64 bits, signed or not. -/
def isWhole : Json → Bool
  | .number (.integer value) => -0x8000000000000000 ≤ value && value ≤ 0xFFFFFFFFFFFFFFFF
  | .number (.real _) => false
  | _ => true

theorem depthOfElements_le_iff {elements : List Json} {room : Nat} :
    depthOfElements elements ≤ room ↔ ∀ element ∈ elements, element.depth ≤ room := by
  induction elements with
  | nil => simp [depthOfElements]
  | cons element elements ih => simp [depthOfElements, ih]

theorem depthOfFields_le_iff {fields : List (String × Json)} {room : Nat} :
    depthOfFields fields ≤ room ↔ ∀ field ∈ fields, field.2.depth ≤ room := by
  induction fields with
  | nil => simp [depthOfFields]
  | cons field fields ih => simp only [depthOfFields, Nat.max_le, ih, List.forall_mem_cons]

theorem everyElement_iff {test : Json → Bool} {elements : List Json} :
    everyElement test elements = true ↔ ∀ element ∈ elements, element.every test = true := by
  induction elements with
  | nil => simp [everyElement]
  | cons element elements ih => simp [everyElement, ih]

theorem everyField_iff {test : Json → Bool} {fields : List (String × Json)} :
    everyField test fields = true ↔ ∀ field ∈ fields, field.2.every test = true := by
  induction fields with
  | nil => simp [everyField]
  | cons field fields ih => simp only [everyField, Bool.and_eq_true, ih, List.forall_mem_cons]

/-- A value that is read again from its text, by a reader with some room. -/
structure Tidy (room : Nat) (value : Json) : Prop where
  /-- The keys of all objects ascend. -/
  ordered : value.every keysAscend = true
  /-- Nothing is nested deeper than the room. -/
  fits : value.depth ≤ room

/-- An array is tidy if its elements are. -/
theorem tidy_array_iff {room : Nat} {elements : List Json} :
    Tidy (room + 1) (.array elements) ↔ ∀ element ∈ elements, Tidy room element := by
  constructor
  · rintro ⟨ordered, fits⟩ element member
    simp only [every, Bool.and_eq_true, everyElement_iff] at ordered
    rw [depth, Nat.add_le_add_iff_right, depthOfElements_le_iff] at fits
    exact ⟨ordered.2 element member, fits element member⟩
  · intro tidy
    constructor
    · simp only [every, keysAscend, Bool.true_and, everyElement_iff]
      exact fun element member => (tidy element member).ordered
    · rw [depth, Nat.add_le_add_iff_right, depthOfElements_le_iff]
      exact fun element member => (tidy element member).fits

/-- An object is tidy if its keys ascend and its values are tidy. -/
theorem tidy_object_iff {room : Nat} {fields : List (String × Json)} :
    Tidy (room + 1) (.object fields) ↔
      (fields.map (·.1)).Pairwise (· < ·) ∧ ∀ field ∈ fields, Tidy room field.2 := by
  constructor
  · rintro ⟨ordered, fits⟩
    simp only [every, keysAscend, Bool.and_eq_true, decide_eq_true_eq, everyField_iff] at ordered
    rw [depth, Nat.add_le_add_iff_right, depthOfFields_le_iff] at fits
    exact ⟨ordered.1, fun field member => ⟨ordered.2 field member, fits field member⟩⟩
  · rintro ⟨ascend, tidy⟩
    constructor
    · simp only [every, keysAscend, Bool.and_eq_true, decide_eq_true_eq, everyField_iff]
      exact ⟨ascend, fun field member => (tidy field member).ordered⟩
    · rw [depth, Nat.add_le_add_iff_right, depthOfFields_le_iff]
      exact fun field member => (tidy field member).fits

/-! ## Lists of elements -/

/-- Texts that are joined with commas, from behind the first of them. -/
def furtherTexts (texts : List (List Char)) : List Char :=
  texts.flatMap (',' :: ·)

/-- Texts are joined with commas. -/
theorem intercalate_cons (first : List Char) (others : List (List Char)) :
    [','].intercalate (first :: others) = first ++ furtherTexts others := by
  induction others generalizing first with
  | nil => simp [furtherTexts]
  | cons next others ih =>
    rw [List.intercalate_cons_cons, ih]
    simp [furtherTexts]

/-- Further texts and a closing bracket may stand behind a value. -/
theorem closes_furtherTexts {mark : Char} (closing : mark = ']' ∨ mark = '}')
    (texts : List (List Char)) (rest : List Char) :
    Closes (furtherTexts texts ++ mark :: rest) := by
  cases texts with
  | nil =>
    intro c isFirst
    obtain rfl := Option.some.inj isFirst
    exact .inr closing
  | cons text texts =>
    intro c isFirst
    obtain rfl := Option.some.inj isFirst
    exact .inl rfl

/-- There are not more texts than characters, one of them more. -/
theorem length_le_furtherTexts (texts : List (List Char)) :
    texts.length ≤ (furtherTexts texts).length := by
  induction texts with
  | nil => exact Nat.le_refl 0
  | cons text texts ih =>
    rw [furtherTexts, List.flatMap_cons, ← furtherTexts]
    simp only [List.cons_append, List.length_cons, List.length_append]
    omega

/-- The text of an element starts with a character that neither is a blank nor closes the array. -/
def StartsElement (text : List Char) : Prop :=
  ∃ c behind, text = c :: behind ∧ isJsonBlank c = false ∧ c ≠ ']'

/-- An array has no element in front of its closing bracket. -/
theorem nextElement_close (first : Bool) (rest : List Char) :
    nextElement first (']' :: rest) = .ok (false, ']' :: rest) := by
  rw [nextElement, bind_of_ok (peek?_cons rfl rest)]
  rfl

/-- The first element comes next. -/
theorem nextElement_first {text : List Char} (starts : StartsElement text) (rest : List Char) :
    nextElement true (text ++ rest) = .ok (true, text ++ rest) := by
  obtain ⟨c, behind, rfl, solid, noClose⟩ := starts
  rw [nextElement, List.cons_append, bind_of_ok (peek?_cons solid _)]
  simp only [noClose, if_false, if_true]
  rfl

/-- A further element comes behind a comma. -/
theorem nextElement_comma {text : List Char} (starts : StartsElement text) (rest : List Char) :
    nextElement false (',' :: (text ++ rest)) = .ok (true, text ++ rest) := by
  obtain ⟨c, behind, rfl, solid, noClose⟩ := starts
  have taken : advance (',' :: (c :: behind ++ rest)) = .ok ((), c :: behind ++ rest) := rfl
  rw [nextElement, bind_of_ok (peek?_cons rfl _)]
  simp only [reduceIte, Char.reduceEq, Bool.false_eq_true]
  rw [bind_of_ok taken, List.cons_append, bind_of_ok (peek?_cons solid _)]
  simp only [noClose, if_false]
  rfl

/-- The mark that is asked for is taken off. -/
theorem takeMark_cons {mark : Char} (solid : isJsonBlank mark = false) (rest : List Char) :
    takeMark mark (mark :: rest) = .ok ((), rest) := by
  rw [takeMark, bind_of_ok (peek?_cons solid rest)]
  simp only [if_true]
  rfl

section Elements

variable {α : Type} {element : Reader α} {texts : List (List Char)} {values : List α}

/-- Further elements are read up to the closing bracket. -/
theorem elementsWithin_further (read : List.Forall₂ (Takes element) texts values)
    (starts : ∀ text ∈ texts, StartsElement text) {limit : Nat} (enough : texts.length < limit)
    (rest : List Char) :
    elementsWithin element limit false (furtherTexts texts ++ ']' :: rest) =
      .ok (values, ']' :: rest) := by
  induction read generalizing limit with
  | nil =>
    obtain ⟨less, rfl⟩ : ∃ less, limit = less + 1 := ⟨limit - 1, by omega⟩
    have noElement := nextElement_close false rest
    rw [furtherTexts, List.flatMap_nil, List.nil_append, elementsWithin, bind_of_ok noElement]
    rfl
  | @cons text value texts values readsFirst readsOthers ih =>
    obtain ⟨less, rfl⟩ : ∃ less, limit = less + 1 := ⟨limit - 1, by omega⟩
    obtain ⟨startsFirst, startsOthers⟩ := List.forall_mem_cons.mp starts
    have split : furtherTexts (text :: texts) ++ ']' :: rest =
        ',' :: (text ++ (furtherTexts texts ++ ']' :: rest)) := by
      simp [furtherTexts]
    have first := readsFirst _ (closes_furtherTexts (.inl rfl) texts rest)
    have others : elementsWithin element less false (furtherTexts texts ++ ']' :: rest) =
        .ok (values, ']' :: rest) := ih startsOthers (by simpa using enough)
    rw [split, elementsWithin, bind_of_ok (nextElement_comma startsFirst _)]
    simp only [if_true]
    rw [bind_of_ok first, bind_of_ok others]
    rfl

/-- The elements of an array are read from behind its opening bracket. -/
theorem elements_intercalate (read : List.Forall₂ (Takes element) texts values)
    (starts : ∀ text ∈ texts, StartsElement text) (rest : List Char) :
    elements element ([','].intercalate texts ++ ']' :: rest) = .ok (values, rest) := by
  have isNext : (get : Reader (List Char)) ([','].intercalate texts ++ ']' :: rest) =
      .ok ([','].intercalate texts ++ ']' :: rest, [','].intercalate texts ++ ']' :: rest) := rfl
  have closed : takeMark ']' (']' :: rest) = .ok ((), rest) := takeMark_cons rfl rest
  have within : elementsWithin element (([','].intercalate texts ++ ']' :: rest).length + 1) true
      ([','].intercalate texts ++ ']' :: rest) = .ok (values, ']' :: rest) := by
    cases read with
    | nil =>
      rw [elementsWithin]
      exact bind_of_ok (nextElement_close true rest)
    | @cons text value texts values readsFirst readsOthers =>
      obtain ⟨startsFirst, startsOthers⟩ := List.forall_mem_cons.mp starts
      have first := readsFirst _ (closes_furtherTexts (.inl rfl) texts rest)
      have length := length_le_furtherTexts texts
      have enough : texts.length < (text ++ (furtherTexts texts ++ ']' :: rest)).length := by
        simp only [List.length_append, List.length_cons]
        omega
      have others := elementsWithin_further readsOthers startsOthers enough rest
      rw [intercalate_cons, List.append_assoc, elementsWithin,
        bind_of_ok (nextElement_first startsFirst _)]
      simp only [if_true]
      rw [bind_of_ok first, bind_of_ok others]
      rfl
  rw [elements, bind_of_ok isNext, bind_of_ok within, bind_of_ok closed]
  rfl

end Elements

/-! ## Fields -/

/-- A field as it is written. -/
def fieldText (field : String × List Char) : List Char :=
  '"' :: (field.1.toList.flatMap escape ++ '"' :: ':' :: field.2)

/-- Reading some fields one after the other leads from one state to another. -/
inductive Gathers {σ : Type} (field : σ → String → Reader σ) :
    σ → List (String × List Char) → σ → Prop
  /-- Without fields the state stays. -/
  | nil {state : σ} : Gathers field state [] state
  /-- The first field leads to the state for the others. -/
  | cons {state next final : σ} {key : String} {text : List Char}
      {others : List (String × List Char)} (first : Takes (field state key) (':' :: text) next)
      (further : Gathers field next others final) :
      Gathers field state ((key, text) :: others) final

/-- An object has no field in front of its closing brace. -/
theorem nextField_close (first : Bool) (rest : List Char) :
    nextField first ('}' :: rest) = .ok (false, '}' :: rest) := by
  rw [nextField, bind_of_ok (peek?_cons rfl rest)]
  rfl

/-- The first field comes next. -/
theorem nextField_first (field : String × List Char) (rest : List Char) :
    nextField true (fieldText field ++ rest) = .ok (true, fieldText field ++ rest) := by
  rw [fieldText, List.cons_append, nextField, bind_of_ok (peek?_cons rfl _)]
  rfl

/-- A further field comes behind a comma. -/
theorem nextField_comma (field : String × List Char) (rest : List Char) :
    nextField false (',' :: (fieldText field ++ rest)) = .ok (true, fieldText field ++ rest) := by
  have taken : advance (',' :: (fieldText field ++ rest)) = .ok ((), fieldText field ++ rest) := rfl
  rw [nextField, bind_of_ok (peek?_cons rfl _)]
  simp only [reduceIte, Char.reduceEq, Bool.false_eq_true]
  rw [bind_of_ok taken, fieldText, List.cons_append, bind_of_ok (peek?_cons rfl _)]
  rfl

section Fields

variable {σ : Type} {field : σ → String → Reader σ} {state final : σ}
  {parts : List (String × List Char)}

/-- A field is read from its opening quote on. -/
theorem fieldsWithin_field {next : σ} {key : String} {text : List Char} {first : Bool}
    {whole rest : List Char} (comes : nextField first whole =
      .ok (true, fieldText (key, text) ++ rest))
    (takes : Takes (field state key) (':' :: text) next) (closes : Closes rest) (limit : Nat) :
    fieldsWithin field (limit + 1) first state whole =
      fieldsWithin field limit false next rest := by
  have behindQuote : fieldText (key, text) ++ rest =
      '"' :: (key.toList.flatMap escape ++ '"' :: (':' :: text ++ rest)) := by
    simp [fieldText]
  have taken : advance ('"' :: (key.toList.flatMap escape ++ '"' :: (':' :: text ++ rest))) =
      .ok ((), key.toList.flatMap escape ++ '"' :: (':' :: text ++ rest)) := rfl
  rw [behindQuote] at comes
  rw [fieldsWithin, bind_of_ok comes]
  simp only [if_true]
  rw [bind_of_ok taken, bind_of_ok (keepString_escape key _), bind_of_ok (takes rest closes)]

/-- Further fields are read up to the closing brace. -/
theorem fieldsWithin_further (gathers : Gathers field state parts final) {limit : Nat}
    (enough : parts.length < limit) (rest : List Char) :
    fieldsWithin field limit false state (furtherTexts (parts.map fieldText) ++ '}' :: rest) =
      .ok (final, '}' :: rest) := by
  induction gathers generalizing limit with
  | nil =>
    obtain ⟨less, rfl⟩ : ∃ less, limit = less + 1 := ⟨limit - 1, by omega⟩
    have noField := nextField_close false rest
    rw [List.map_nil, furtherTexts, List.flatMap_nil, List.nil_append, fieldsWithin,
      bind_of_ok noField]
    rfl
  | @cons state next final key text others takes _ ih =>
    obtain ⟨less, rfl⟩ : ∃ less, limit = less + 1 := ⟨limit - 1, by omega⟩
    have split : furtherTexts (((key, text) :: others).map fieldText) ++ '}' :: rest =
        ',' :: (fieldText (key, text) ++ (furtherTexts (others.map fieldText) ++ '}' :: rest)) := by
      simp [furtherTexts]
    rw [split, fieldsWithin_field (nextField_comma _ _) takes (closes_furtherTexts (.inr rfl) _ _)]
    exact ih (by simpa using enough)

/-- The fields of an object are read from behind its opening brace. -/
theorem fields_intercalate (gathers : Gathers field state parts final) (rest : List Char) :
    fields field state ([','].intercalate (parts.map fieldText) ++ '}' :: rest) =
      .ok (final, '}' :: rest) := by
  have isNext : (get : Reader (List Char))
      ([','].intercalate (parts.map fieldText) ++ '}' :: rest) =
        .ok ([','].intercalate (parts.map fieldText) ++ '}' :: rest,
          [','].intercalate (parts.map fieldText) ++ '}' :: rest) := rfl
  rw [fields, bind_of_ok isNext]
  cases gathers with
  | nil =>
    rw [fieldsWithin]
    exact bind_of_ok (nextField_close true rest)
  | @cons _ next _ key text others takes further =>
    have length := length_le_furtherTexts (others.map fieldText)
    rw [List.length_map] at length
    rw [List.map_cons, intercalate_cons, List.append_assoc,
      fieldsWithin_field (nextField_first _ _) takes (closes_furtherTexts (.inr rfl) _ _)]
    refine fieldsWithin_further further ?_ rest
    simp only [List.length_append, List.length_cons]
    omega

end Fields

/-- A field behind all others is put at the end. -/
theorem insertField_last {held : List (String × Json)} {key : String}
    (behind : ∀ field ∈ held, field.1 < key) (value : Json) :
    insertField key value held = held ++ [(key, value)] := by
  induction held with
  | nil => rfl
  | cons first held ih =>
    obtain ⟨before, others⟩ := List.forall_mem_cons.mp behind
    rw [insertField, if_neg (String.lt_asymm before), if_neg (ne_of_gt before), ih others]
    rfl

/-! ## Values -/

/-- The text of a string. -/
theorem toList_quote (text : String) :
    (quote text).toList = '"' :: (text.toList.flatMap escape ++ ['"']) := by
  simp [quote]

/-- The text of a string, with what stands behind it. -/
theorem toList_compact_string (text : String) (rest : List Char) :
    (compact (.string text)).toList ++ rest =
      '"' :: (text.toList.flatMap escape ++ '"' :: rest) := by
  rw [compact, toList_quote]
  simp

/-- The text of a natural number. -/
theorem toList_compact_ofNat (n : Nat) :
    (compact (.number (.integer (.ofNat n)))).toList = Nat.toDigits 10 n :=
  Nat.toList_repr

/-- The text of a negative number. -/
theorem toList_compact_negSucc (n : Nat) :
    (compact (.number (.integer (.negSucc n)))).toList = '-' :: Nat.toDigits 10 (n + 1) := by
  change ("-" ++ (n + 1).repr).toList = _
  rw [String.toList_append, Nat.toList_repr]
  rfl

/-- The text of an array. -/
theorem toList_compact_array (elements : List Json) :
    (Json.array elements).compact.toList =
      '[' :: ([','].intercalate (elements.map fun element => element.compact.toList) ++ [']']) := by
  have texts : compactElements elements = elements.map compact := by
    induction elements with
    | nil => rfl
    | cons element elements ih => rw [compactElements, ih, List.map_cons]
  rw [compact, texts, String.toList_append, String.toList_append, String.toList_intercalate,
    List.map_map]
  rfl

/-- The fields of an object with their texts. -/
def fieldParts (fields : List (String × Json)) : List (String × List Char) :=
  fields.map fun field => (field.1, field.2.compact.toList)

/-- The text of an object. -/
theorem toList_compact_object (fields : List (String × Json)) :
    (Json.object fields).compact.toList =
      '{' :: ([','].intercalate ((fieldParts fields).map fieldText) ++ ['}']) := by
  have texts : (compactFields fields).map String.toList = (fieldParts fields).map fieldText := by
    induction fields with
    | nil => rfl
    | cons field fields ih =>
      have first : (quote field.1 ++ ":" ++ field.2.compact).toList =
          fieldText (field.1, field.2.compact.toList) := by
        simp [fieldText, toList_quote]
      rw [compactFields, List.map_cons, ih, first]
      rfl
  rw [compact, String.toList_append, String.toList_append, String.toList_intercalate, texts]
  rfl

section Scalars

variable (array object : Reader Json)

/-- A written string is read again. -/
theorem takes_string (text : String) :
    Takes (scalarOr array object) (compact (.string text)).toList (.string text) := by
  intro rest _
  have taken : advance ('"' :: (text.toList.flatMap escape ++ '"' :: rest)) =
      .ok ((), text.toList.flatMap escape ++ '"' :: rest) := rfl
  rw [toList_compact_string, scalarOr, bind_of_ok (peek?_cons rfl _)]
  simp only [reduceIte, Char.reduceEq]
  rw [bind_of_ok taken, bind_of_ok (keepString_escape text rest)]
  rfl

/-- The text for nothing is read again. -/
theorem takes_null : Takes (scalarOr array object) (compact .null).toList .null := by
  intro rest _
  have expected := expect_append "null".toList rest
  change scalarOr array object ('n' :: ("ull".toList ++ rest)) = _
  rw [scalarOr, bind_of_ok (peek?_cons rfl _)]
  exact bind_of_ok expected

/-- A written truth value is read again. -/
theorem takes_bool (value : Bool) :
    Takes (scalarOr array object) (compact (.bool value)).toList (.bool value) := by
  intro rest _
  cases value with
  | true =>
    have expected := expect_append "true".toList rest
    change scalarOr array object ('t' :: ("rue".toList ++ rest)) = _
    rw [scalarOr, bind_of_ok (peek?_cons rfl _)]
    exact bind_of_ok expected
  | false =>
    have expected := expect_append "false".toList rest
    change scalarOr array object ('f' :: ("alse".toList ++ rest)) = _
    rw [scalarOr, bind_of_ok (peek?_cons rfl _)]
    exact bind_of_ok expected

/-- A digit is no blank and no mark. -/
theorem of_isDigit {c : Char} (digit : c.isDigit = true) :
    isJsonBlank c = false ∧ c ∉ ['[', ']', '{', '"', '-'] := by
  constructor
  · rw [isJsonBlank]
    simp only [Bool.or_eq_false_iff, beq_eq_false_iff_ne]
    refine ⟨⟨⟨?_, ?_⟩, ?_⟩, ?_⟩ <;> rintro rfl <;> contradiction
  · simp only [List.mem_cons, List.not_mem_nil, or_false, not_or]
    refine ⟨?_, ?_, ?_, ?_, ?_⟩ <;> rintro rfl <;> contradiction

/-- The digits of a number start with a digit. -/
theorem exists_digit (n : Nat) :
    ∃ c others, Nat.toDigits 10 n = c :: others ∧ c.isDigit = true := by
  obtain ⟨c, others, front⟩ := List.exists_cons_of_ne_nil
    (Nat.toDigits_ne_nil : Nat.toDigits 10 n ≠ [])
  have member : c ∈ Nat.toDigits 10 n := front ▸ List.mem_cons_self
  exact ⟨c, others, front, Nat.isDigit_of_mem_toDigits (by decide) (by decide) member⟩

/-- A natural number that fits into 64 bits is read again. -/
theorem takes_nat {n : Nat} (fits : n ≤ 0xFFFFFFFFFFFFFFFF) :
    Takes (scalarOr array object) (Nat.toDigits 10 n) (.number (.integer n)) := by
  intro rest closes
  have kept := takes_keepNumber fits rest closes
  obtain ⟨c, others, front, digit⟩ := exists_digit n
  obtain ⟨solid, noMark⟩ := of_isDigit digit
  simp only [List.mem_cons, List.not_mem_nil, or_false, not_or] at noMark
  rw [front, List.cons_append] at kept ⊢
  rw [scalarOr, bind_of_ok (peek?_cons solid _)]
  simp only [noMark, digit, if_false, if_true]
  exact bind_of_ok kept

/-- A negative number that fits into 64 bits is read again. -/
theorem takes_negative {n : Nat} (positive : 0 < n) (fits : n ≤ 0x8000000000000000) :
    Takes (scalarOr array object) ('-' :: Nat.toDigits 10 n) (.number (.integer (-n))) := by
  intro rest closes
  have kept := takes_keepNumber_negative positive fits rest closes
  have taken : advance ('-' :: (Nat.toDigits 10 n ++ rest)) =
      .ok ((), Nat.toDigits 10 n ++ rest) := rfl
  rw [List.cons_append, scalarOr, bind_of_ok (peek?_cons rfl _)]
  simp only [reduceIte, Char.reduceEq]
  rw [bind_of_ok taken]
  exact bind_of_ok kept

/-- A whole number that fits into 64 bits is read again. -/
theorem takes_number {number : Number} (whole : (Json.number number).isWhole = true) :
    Takes (scalarOr array object) (compact (.number number)).toList (.number number) := by
  cases number with
  | real value => contradiction
  | integer value =>
    simp only [isWhole, Bool.and_eq_true, decide_eq_true_eq] at whole
    cases value with
    | ofNat n =>
      rw [toList_compact_ofNat]
      exact takes_nat array object (Int.ofNat_le.mp whole.2)
    | negSucc n =>
      rw [toList_compact_negSucc]
      exact takes_negative array object (Nat.succ_pos n) (by omega)

/-- A value that is no array and no object is read again. -/
theorem takes_scalar {value : Json} (flat : value.depth = 0) (whole : value.isWhole = true) :
    Takes (scalarOr array object) value.compact.toList value := by
  cases value with
  | null => exact takes_null array object
  | bool truth => exact takes_bool array object truth
  | number number => exact takes_number array object whole
  | string text => exact takes_string array object text
  | array elements => exact absurd flat (Nat.succ_ne_zero _)
  | object fields => exact absurd flat (Nat.succ_ne_zero _)

end Scalars

/-- The text of a value starts as an element does. -/
theorem startsElement_compact {json : Json} (whole : json.isWhole = true) :
    StartsElement json.compact.toList := by
  cases json with
  | null => exact ⟨'n', _, rfl, rfl, by decide⟩
  | bool truth =>
    cases truth with
    | true => exact ⟨'t', _, rfl, rfl, by decide⟩
    | false => exact ⟨'f', _, rfl, rfl, by decide⟩
  | number number =>
    cases number with
    | real value => contradiction
    | integer value =>
      cases value with
      | ofNat n =>
        obtain ⟨c, others, front, digit⟩ := exists_digit n
        obtain ⟨solid, noMark⟩ := of_isDigit digit
        rw [toList_compact_ofNat, front]
        refine ⟨c, others, rfl, solid, fun closes => noMark ?_⟩
        simp [closes]
      | negSucc n => exact ⟨'-', _, toList_compact_negSucc n, rfl, by decide⟩
  | string text => exact ⟨'"', _, toList_quote text, rfl, by decide⟩
  | array elements => exact ⟨'[', _, toList_compact_array elements, rfl, by decide⟩
  | object fields => exact ⟨'{', _, toList_compact_object fields, rfl, by decide⟩

/-- A test that passes everywhere in a value passes for the value. -/
theorem of_every {test : Json → Bool} {json : Json} (passes : json.every test = true) :
    test json = true := by
  cases json with
  | null | bool | number | string => exact passes
  | array | object =>
    rw [every, Bool.and_eq_true] at passes
    exact passes.1

/-- Fields with ascending keys are put one behind the other. -/
theorem gathers_mapField {room : Nat} {held fields : List (String × Json)}
    (ascend : ((held ++ fields).map (·.1)).Pairwise (· < ·))
    (read : ∀ field ∈ fields, Takes (value room) field.2.compact.toList field.2) :
    Gathers (mapField (value room)) held (fieldParts fields) (held ++ fields) := by
  induction fields generalizing held with
  | nil =>
    rw [List.append_nil]
    exact .nil
  | cons field fields ih =>
    obtain ⟨first, others⟩ := List.forall_mem_cons.mp read
    have behind : ∀ other ∈ held, other.1 < field.1 := by
      intro other member
      rw [List.map_append, List.pairwise_append] at ascend
      exact ascend.2.2 _ (List.mem_map_of_mem member) _ (List.mem_map_of_mem List.mem_cons_self)
    have inserted := insertField_last behind field.2
    have joined : held ++ field :: fields = (held ++ [field]) ++ fields := by simp
    rw [joined] at ascend ⊢
    refine .cons (fun rest closes => ?_) (ih ascend others)
    rw [List.cons_append, mapField, bind_of_ok (takeMark_cons rfl _),
      bind_of_ok (first rest closes), inserted]
    rfl

/-- A map is read again from behind its opening brace. -/
theorem mapFields_intercalate {room : Nat} {fields : List (String × Json)}
    (ascend : (fields.map (·.1)).Pairwise (· < ·))
    (read : ∀ field ∈ fields, Takes (value room) field.2.compact.toList field.2)
    (rest : List Char) :
    mapFields (value room)
      ([','].intercalate ((fieldParts fields).map fieldText) ++ '}' :: rest) =
        .ok (fields, rest) := by
  have gathers : Gathers (mapField (value room)) [] (fieldParts fields) fields :=
    gathers_mapField ascend read
  have closed : takeMark '}' ('}' :: rest) = .ok ((), rest) := takeMark_cons rfl rest
  rw [mapFields, bind_of_ok (fields_intercalate gathers rest), bind_of_ok closed]
  rfl

/-- An array is read from behind its opening bracket. -/
theorem scalarOr_array (array object : Reader Json) (rest : List Char) :
    scalarOr array object ('[' :: rest) = array rest := by
  rw [scalarOr, bind_of_ok (peek?_cons rfl _)]
  rfl

/-- An object is read from behind its opening brace. -/
theorem scalarOr_object (array object : Reader Json) (rest : List Char) :
    scalarOr array object ('{' :: rest) = object rest := by
  rw [scalarOr, bind_of_ok (peek?_cons rfl _)]
  rfl

/-- A tidy value with whole numbers is read again from its text. -/
theorem takes_value {room : Nat} {json : Json} (tidy : Tidy room json)
    (whole : json.every isWhole = true) : Takes (value room) json.compact.toList json := by
  induction room generalizing json with
  | zero => exact takes_scalar _ _ (Nat.le_zero.mp tidy.fits) (of_every whole)
  | succ room ih =>
    cases json with
    | null | bool | string => exact takes_scalar _ _ rfl rfl
    | number number => exact takes_scalar _ _ rfl whole
    | array elements =>
      rw [every, Bool.and_eq_true, everyElement_iff] at whole
      have inside := tidy_array_iff.mp tidy
      have read : List.Forall₂ (Takes (value room))
          (elements.map fun element => element.compact.toList) elements := by
        rw [List.forall₂_map_left_iff, List.forall₂_same]
        exact fun element member => ih (inside element member) (whole.2 element member)
      have starts : ∀ text ∈ elements.map fun element => element.compact.toList,
          StartsElement text := by
        intro text member
        obtain ⟨element, isElement, rfl⟩ := List.mem_map.mp member
        exact startsElement_compact (of_every (whole.2 element isElement))
      intro rest _
      rw [toList_compact_array, List.cons_append, List.append_assoc, List.singleton_append, value,
        scalarOr_array, bind_of_ok (elements_intercalate read starts rest)]
      rfl
    | object fields =>
      rw [every, Bool.and_eq_true, everyField_iff] at whole
      obtain ⟨ascend, inside⟩ := tidy_object_iff.mp tidy
      have read : ∀ field ∈ fields, Takes (value room) field.2.compact.toList field.2 :=
        fun field member => ih (inside field member) (whole.2 field member)
      intro rest _
      rw [toList_compact_object, List.cons_append, List.append_assoc, List.singleton_append, value,
        scalarOr_object, bind_of_ok (mapFields_intercalate ascend read rest)]
      rfl

end ShaderBlocks.Json
