import ShaderBlocks.Proofs.TextScan
import ShaderBlocks.Source.RawItem

/-!
# The grammar of top-level items

Reading an item off a text is the same as finding one of four shapes at its start: a line
with a hash, a statement up to its semicolon, a function with its brace group, or an aggregate
with its brace group and all up to the next semicolon. A brace group is what lies between two
braces if the braces inside it are balanced.
-/

namespace ShaderBlocks.Source

open ShaderBlocks.Text

/-- The number of groups that are open behind a text, with `depth` open before it. There is
none if the text closes a group that is not open. -/
def nesting : Nat → List Char → Option Nat
  | depth, [] => some depth
  | depth, '{' :: rest => nesting (depth + 1) rest
  | 0, '}' :: _ => none
  | depth + 1, '}' :: rest => nesting depth rest
  | depth, _ :: rest => nesting depth rest

/-- Every group that the text opens is closed in it, and no other. -/
def Balanced (text : List Char) : Prop :=
  nesting 0 text = some 0

/-- The characters that open and close groups. -/
def isBrace (c : Char) : Bool :=
  c == '{' || c == '}'

/-- Only braces matter. -/
theorem nesting_filter (depth : Nat) (text : List Char) :
    nesting depth (text.filter isBrace) = nesting depth text := by
  fun_induction nesting depth text with
  | case1 depth => rfl
  | case2 depth rest ih => rw [List.filter_cons_of_pos rfl, nesting, ih]
  | case3 rest => rw [List.filter_cons_of_pos rfl, nesting]
  | case4 depth rest ih => rw [List.filter_cons_of_pos rfl, nesting, ih]
  | case5 depth c rest noOpening noClosing noOther ih =>
    rw [List.filter_cons]
    split
    · rw [nesting, ih]
      · exact noOpening
      · exact noClosing
      · exact noOther
    · exact ih

/-- Texts of the same braces are balanced alike. -/
theorem balanced_congr {first second : List Char}
    (same : first.filter isBrace = second.filter isBrace) : Balanced first ↔ Balanced second := by
  rw [Balanced, Balanced, ← nesting_filter, same, nesting_filter]

/-- A group is closed by the brace behind a text that leaves no other group open. -/
theorem closeGroup?_append {depth : Nat} {inner : List Char} (closed : nesting depth inner = some 0)
    (rest : List Char) :
    closeGroup? depth (inner ++ '}' :: rest) = some (inner ++ ['}'], rest) := by
  fun_induction nesting depth inner with
  | case1 depth =>
    obtain rfl := Option.some.inj closed
    rfl
  | case2 depth inner ih => rw [List.cons_append, closeGroup?, ih closed]; rfl
  | case3 inner => contradiction
  | case4 depth inner ih => rw [List.cons_append, closeGroup?, ih closed]; rfl
  | case5 depth c inner noOpening noClosing noOther ih =>
    rw [List.cons_append, closeGroup?, ih closed]
    · rfl
    · exact noOpening
    · exact noClosing
    · exact noOther

/-- A group reaches up to the brace that matches the one before it. -/
theorem closeGroup?_eq_some {depth : Nat} {text group rest : List Char} :
    closeGroup? depth text = some (group, rest) ↔
      ∃ inner, nesting depth inner = some 0 ∧ group = inner ++ ['}'] ∧
        text = inner ++ '}' :: rest := by
  constructor
  · intro closed
    fun_induction closeGroup? depth text generalizing group with
    | case1 depth => contradiction
    | case2 depth text ih =>
      obtain ⟨⟨found, after⟩, inside, ⟨rfl⟩⟩ := Option.map_eq_some_iff.mp closed
      obtain ⟨inner, deeper, rfl, rfl⟩ := ih inside
      exact ⟨'{' :: inner, by rwa [nesting], rfl, rfl⟩
    | case3 text =>
      obtain ⟨rfl, rfl⟩ := Prod.mk.inj (Option.some.inj closed)
      exact ⟨[], rfl, rfl, rfl⟩
    | case4 depth text ih =>
      obtain ⟨⟨found, after⟩, inside, ⟨rfl⟩⟩ := Option.map_eq_some_iff.mp closed
      obtain ⟨inner, deeper, rfl, rfl⟩ := ih inside
      exact ⟨'}' :: inner, by rwa [nesting], rfl, rfl⟩
    | case5 depth c text noOpening noClosing noOther ih =>
      obtain ⟨⟨found, after⟩, inside, ⟨rfl⟩⟩ := Option.map_eq_some_iff.mp closed
      obtain ⟨inner, deeper, rfl, rfl⟩ := ih inside
      refine ⟨c :: inner, ?_, rfl, rfl⟩
      rw [nesting, deeper]
      · exact noOpening
      · exact noClosing
      · exact noOther
  · rintro ⟨inner, closed, rfl, rfl⟩
    exact closeGroup?_append closed rest

/-- What can stand at the start of a text, and what follows it. -/
inductive Reads : List Char → RawItem → List Char → Prop
  /-- A line that starts with a hash. -/
  | directive {line rest : List Char} (hash : line.head? = some '#') (oneLine : '\n' ∉ line)
      (stops : ∀ c ∈ rest.head?, c = '\n') :
      Reads (line ++ rest) (.directive (trimEnd line)) rest
  /-- A header with a semicolon. -/
  | statement {header rest : List Char} (noHash : header.head? ≠ some '#')
      (plain : ∀ c ∈ header, endsHeader c = false) :
      Reads (header ++ ';' :: rest) (.statement (trim (header ++ [';']))) rest
  /-- A header with a parenthesis and a brace group. -/
  | function {header group rest : List Char} (noHash : header.head? ≠ some '#')
      (plain : ∀ c ∈ header, endsHeader c = false) (parameters : '(' ∈ header)
      (balanced : Balanced group) :
      Reads (header ++ '{' :: (group ++ '}' :: rest))
        (.function (trim header) ('{' :: (group ++ ['}']))) rest
  /-- A header without a parenthesis, a brace group and a semicolon. -/
  | aggregate {header group tail rest : List Char} (noHash : header.head? ≠ some '#')
      (plain : ∀ c ∈ header, endsHeader c = false) (noParameters : '(' ∉ header)
      (balanced : Balanced group) (noSemicolon : ';' ∉ tail) :
      Reads (header ++ '{' :: (group ++ '}' :: (tail ++ ';' :: rest)))
        (.statement (trim (header ++ '{' :: (group ++ ['}']) ++ tail ++ [';']))) rest

/-- A header that does not start with a hash starts no directive, whatever follows. -/
theorem head?_append_ne_hash {header rest : List Char} {stop : Char}
    (noHash : header.head? ≠ some '#') (other : stop ≠ '#') :
    (header ++ stop :: rest).head? ≠ some '#' := by
  cases header with
  | nil => simpa using other
  | cons c header => exact noHash

/-- What stands at the start of a text is read. -/
theorem Reads.readItem {text rest : List Char} {item : RawItem} (reads : Reads text item rest) :
    readItem text = .ok (item, rest) := by
  cases reads with
  | @directive line _ hash oneLine stops =>
    have first : (line ++ rest).head? = some '#' := by
      rw [List.head?_append, hash, Option.some_or]
    have kept : ∀ c ∈ line, (decide (c ≠ '\n')) = true := by
      intro c member
      rw [decide_eq_true_eq]
      rintro rfl
      exact oneLine member
    rw [Source.readItem, if_pos first]
    cases rest with
    | nil =>
      rw [List.append_nil, List.takeWhile_eq_self_iff.mpr kept, List.dropWhile_eq_nil_iff.mpr kept]
    | cons c rest =>
      obtain rfl := stops c rfl
      rw [takeWhile_append_cons kept (by simp), dropWhile_append_cons kept (by simp)]
  | @statement header _ noHash plain =>
    have kept : ∀ c ∈ header, (!endsHeader c) = true := fun c member => by simp [plain c member]
    rw [Source.readItem, if_neg (head?_append_ne_hash noHash (by decide)),
      takeWhile_append_cons kept (by decide), dropWhile_append_cons kept (by decide)]
    rfl
  | @function header group _ noHash plain parameters balanced =>
    have kept : ∀ c ∈ header, (!endsHeader c) = true := fun c member => by simp [plain c member]
    rw [Source.readItem, if_neg (head?_append_ne_hash noHash (by decide)),
      takeWhile_append_cons kept (by decide), dropWhile_append_cons kept (by decide)]
    simp only [closeGroup?_append balanced, if_pos parameters]
  | @aggregate header group tail _ noHash plain noParameters balanced noSemicolon =>
    have kept : ∀ c ∈ header, (!endsHeader c) = true := fun c member => by simp [plain c member]
    have cut : splitOnce? ';' (tail ++ ';' :: rest) = some (tail, rest) :=
      splitOnce?_eq_some.mpr ⟨rfl, noSemicolon⟩
    rw [Source.readItem, if_neg (head?_append_ne_hash noHash (by decide)),
      takeWhile_append_cons kept (by decide), dropWhile_append_cons kept (by decide)]
    simp only [closeGroup?_append balanced, if_neg noParameters, cut]

/-- What is read stands at the start of the text. -/
theorem reads_of_readItem {text rest : List Char} {item : RawItem}
    (read : readItem text = .ok (item, rest)) : Reads text item rest := by
  rw [readItem] at read
  split at read
  · rename_i hash
    obtain ⟨rfl, rfl⟩ := Prod.mk.inj (Except.ok.inj read)
    have first : (text.takeWhile (· ≠ '\n')).head? = some '#' := by
      cases text with
      | nil => contradiction
      | cons c rest =>
        obtain rfl := Option.some.inj hash
        rfl
    have oneLine : '\n' ∉ text.takeWhile (· ≠ '\n') := by
      intro member
      simpa using List.mem_takeWhile_imp member
    have stops : ∀ c ∈ (text.dropWhile (· ≠ '\n')).head?, c = '\n' := by
      intro c isFirst
      obtain ⟨rest, dropped⟩ := List.head?_eq_some_iff.mp isFirst
      simpa using stop_of_dropWhile dropped
    have reads := Reads.directive first oneLine stops
    rwa [List.takeWhile_append_dropWhile] at reads
  · rename_i noHash
    have headed : (text.takeWhile (!endsHeader ·)).head? ≠ some '#' := by
      cases text with
      | nil => simp
      | cons c rest =>
        rw [List.takeWhile_cons]
        split
        · exact noHash
        · simp
    have plain : ∀ c ∈ text.takeWhile (!endsHeader ·), endsHeader c = false := by
      intro c member
      simpa using List.mem_takeWhile_imp member
    have divided := List.takeWhile_append_dropWhile (p := (!endsHeader ·)) (l := text)
    generalize text.takeWhile (!endsHeader ·) = header at read headed plain divided
    dsimp only at read
    split at read
    · rename_i behind dropped
      obtain ⟨rfl, rfl⟩ := Prod.mk.inj (Except.ok.inj read)
      rw [← divided, dropped]
      exact .statement headed plain
    · rename_i behind dropped
      split at read
      · contradiction
      · rename_i group after closed
        obtain ⟨inner, balanced, rfl, rfl⟩ := closeGroup?_eq_some.mp closed
        rw [← divided, dropped]
        by_cases parameters : '(' ∈ header
        · rw [if_pos parameters] at read
          obtain ⟨rfl, rfl⟩ := Prod.mk.inj (Except.ok.inj read)
          exact .function headed plain parameters balanced
        · rw [if_neg parameters] at read
          split at read
          · contradiction
          · rename_i tail last cut
            obtain ⟨rfl, rfl⟩ := Prod.mk.inj (Except.ok.inj read)
            obtain ⟨rfl, noSemicolon⟩ := splitOnce?_eq_some.mp cut
            exact .aggregate headed plain parameters balanced noSemicolon
    · contradiction
    · contradiction

/-- An item is read exactly where one stands. -/
theorem readItem_eq_ok {text rest : List Char} {item : RawItem} :
    readItem text = .ok (item, rest) ↔ Reads text item rest :=
  ⟨reads_of_readItem, Reads.readItem⟩

end ShaderBlocks.Source
