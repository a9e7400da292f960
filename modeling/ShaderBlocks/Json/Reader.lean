import ShaderBlocks.Json.Scan

/-!
# Reading JSON text: values

Arrays and objects may be nested up to a limit, the `room` that a reader is given;
values that are passed over may be nested to any depth.
-/

namespace ShaderBlocks.Json

/-- Say whether an array has a further element, and go to it. -/
def nextElement (first : Bool) : Reader Bool := do
  match ← peek? with
  | none => throw .ended
  | some c =>
    if c = ']' then
      return false
    else if first then
      return true
    else if c = ',' then
      advance
      match ← peek? with
      | none => throw .ended
      | some c => if c = ']' then throw .malformed else return true
    else
      throw .malformed

/-- Say whether an object has a further field, and go to the quote of its key. -/
def nextField (first : Bool) : Reader Bool := do
  match ← peek? with
  | none => throw .ended
  | some c =>
    if c = '}' then
      return false
    else if first then
      if c = '"' then return true else throw .malformed
    else if c = ',' then
      advance
      match ← peek? with
      | none => throw .ended
      | some c => if c = '"' then return true else throw .malformed
    else
      throw .malformed

/-- Take off the mark that comes next. -/
def takeMark (mark : Char) : Reader Unit := do
  match ← peek? with
  | none => throw .ended
  | some c => if c = mark then advance else throw .malformed

/-- Read the elements of an array, at most `limit`, up to its closing bracket. -/
def elementsWithin {α : Type} (element : Reader α) : (limit : Nat) → (first : Bool) →
    Reader (List α)
  | 0, _ => throw .ended
  | limit + 1, first => do
    if ← nextElement first then
      let value ← element
      let others ← elementsWithin element limit false
      return value :: others
    else
      return []

/-- Read the elements of an array from behind its opening bracket. An array has no
more elements than characters. -/
def elements {α : Type} (element : Reader α) : Reader (List α) := do
  let values ← elementsWithin element ((← get).length + 1) true
  takeMark ']'
  return values

/-- Read the fields of an object, at most `limit`, up to its closing brace. `field`
is given the state so far and the key, and reads on from behind the key. -/
def fieldsWithin {σ : Type} (field : σ → String → Reader σ) : (limit : Nat) →
    (first : Bool) → σ → Reader σ
  | 0, _, _ => throw .ended
  | limit + 1, first, state => do
    if ← nextField first then
      advance
      let key ← keepString
      let state ← field state key
      fieldsWithin field limit false state
    else
      return state

/-- Read the fields of an object from behind its opening brace, up to its closing
brace. -/
def fields {σ : Type} (field : σ → String → Reader σ) (start : σ) : Reader σ := do
  fieldsWithin field ((← get).length + 1) true start

/-- Read a value that is not an array or an object, or go on with `array` or
`object` from behind the opening bracket. -/
def scalarOr (array object : Reader Json) : Reader Json := do
  match ← peek? with
  | none => throw .ended
  | some c =>
    if c = '[' then do advance; array
    else if c = '{' then do advance; object
    else if c = '"' then do advance; return .string (← keepString)
    else if c = '-' then do advance; return .number (← keepNumber true)
    else if c.isDigit then return .number (← keepNumber false)
    else if c = 'n' then do expect "null".toList; return .null
    else if c = 't' then do expect "true".toList; return .bool true
    else if c = 'f' then do expect "false".toList; return .bool false
    else throw .malformed

/-- Read a field of a map from behind its key, with `value` for what it holds, and put it
into the map. -/
def mapField (value : Reader Json) (held : List (String × Json)) (key : String) :
    Reader (List (String × Json)) := do
  takeMark ':'
  return insertField key (← value) held

/-- Read an object as a map, from behind its opening brace. The fields are put in order, and
a later field replaces an earlier one. -/
def mapFields (value : Reader Json) : Reader (List (String × Json)) := do
  let held ← fields (mapField value) []
  takeMark '}'
  return held

/-- Read a value with arrays and objects nested at most `room` deep. -/
def value : (room : Nat) → Reader Json
  | 0 => scalarOr (throw .malformed) (throw .malformed)
  | room + 1 =>
    scalarOr
      (do return .array (← elements (value room)))
      (do return .object (← mapFields (value room)))

/-! ## Values that are passed over -/

/-- What encloses a value. -/
inductive Enclosure
  | array
  | object
  deriving DecidableEq, Repr

/-- Pass over a key and its colon. -/
def passKey : Reader Unit := do
  takeMark '"'
  passString
  takeMark ':'

/-- Go on from the end of a value. The result is what encloses the value that
comes next; nothing if the outermost value is complete. -/
def leave : List Enclosure → Reader (List Enclosure)
  | [] => return []
  | .array :: outer => do
    match ← peek? with
    | none => throw .ended
    | some c =>
      if c = ',' then do advance; return .array :: outer
      else if c = ']' then do advance; leave outer
      else throw .malformed
  | .object :: outer => do
    match ← peek? with
    | none => throw .ended
    | some c =>
      if c = ',' then do advance; passKey; return .object :: outer
      else if c = '}' then do advance; leave outer
      else throw .malformed

/-- Pass over the start of a value: all of it, or the opening bracket of an array or
object with something in it. The result is what encloses the value that comes
next. -/
def enter (outer : List Enclosure) : Reader (List Enclosure) := do
  match ← peek? with
  | none => throw .ended
  | some c =>
    if c = '[' then do
      advance
      match ← peek? with
      | none => throw .ended
      | some c => if c = ']' then do advance; leave outer else return .array :: outer
    else if c = '{' then do
      advance
      match ← peek? with
      | none => throw .ended
      | some c =>
        if c = '}' then do advance; leave outer
        else do passKey; return .object :: outer
    else if c = '"' then do advance; passString; leave outer
    else if c = '-' then do advance; passNumber; leave outer
    else if c.isDigit then do passNumber; leave outer
    else if c = 'n' then do expect "null".toList; leave outer
    else if c = 't' then do expect "true".toList; leave outer
    else if c = 'f' then do expect "false".toList; leave outer
    else throw .malformed

/-- Pass over values until the outermost one is complete, in at most `limit` steps. -/
def passWithin : (limit : Nat) → List Enclosure → Reader Unit
  | 0, _ => throw .ended
  | limit + 1, outer => do
    match ← enter outer with
    | [] => return ()
    | outer => passWithin limit outer

/-- Pass over a value of any depth. Every step takes at least one character. -/
def passValue : Reader Unit := do
  passWithin ((← get).length + 1) []

/-- Read a whole text as one value, with nothing but blanks around it. -/
def readWhole {α : Type} (reader : Reader α) (text : String) : Except Fault α := do
  let (value, rest) ← reader text.toList
  if (rest.dropWhile isJsonBlank).isEmpty then return value else throw .malformed

/-- Read a text as a JSON value with arrays and objects nested at most `room` deep. -/
def parse (room : Nat) (text : String) : Except Fault Json :=
  readWhole (value room) text

end ShaderBlocks.Json
