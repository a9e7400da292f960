import ShaderBlocks.Proofs.JsonRoundTrip
import ShaderBlocks.Proofs.Outcome

/-!
# Values that are read are tidy

The keys of an object ascend however the object was written, since each field is put into its
place, and nothing is nested deeper than the room of the reader. A property of what a reader gives
is shown reader by reader: what a reader gives to the next one has a property, so what the next one
gives has another.
-/

namespace ShaderBlocks.Json

/-- All that a reader gives has a property. -/
def Yields {α : Type} (reader : Reader α) (property : α → Prop) : Prop :=
  ∀ text result rest, reader text = .ok (result, rest) → property result

namespace Yields

variable {α β : Type} {reader : Reader α} {next : α → Reader β} {holds : α → Prop}
  {property : β → Prop}

/-- Nothing is said of what a reader gives. -/
theorem anything (reader : Reader α) : Yields reader fun _ => True :=
  fun _ _ _ _ => trivial

/-- A reader gives what it is told to. -/
theorem pure {result : β} (has : property result) : Yields (pure result) property := by
  intro text given rest read
  obtain ⟨rfl, -⟩ := Prod.mk.inj (Except.ok.inj read)
  exact has

/-- A reader that fails gives nothing. -/
theorem throw (fault : Fault) : Yields (throw fault) property := by
  intro text given rest read
  contradiction

/-- What a reader gives to the next one has a property. -/
theorem bind (first : Yields reader holds)
    (further : ∀ given, holds given → Yields (next given) property) :
    Yields (reader >>= next) property := by
  intro text result rest read
  obtain ⟨⟨given, left⟩, readsFirst, readsNext⟩ := bind_eq_ok.mp
    (show (reader text >>= fun given => next given.1 given.2) = .ok (result, rest) from read)
  exact further given (first text given left readsFirst) left result rest readsNext

/-- Whatever a reader gives to the next one, the next one gives what has a property. -/
theorem after (further : ∀ given, Yields (next given) property) :
    Yields (reader >>= next) property :=
  (anything reader).bind fun given _ => further given

/-- A reader chooses between two. -/
theorem ite {condition : Prop} [Decidable condition] {yes no : Reader β}
    (first : condition → Yields yes property) (second : ¬ condition → Yields no property) :
    Yields (if condition then yes else no) property := by
  by_cases holds : condition
  · rw [if_pos holds]
    exact first holds
  · rw [if_neg holds]
    exact second holds

end Yields

section Lists

variable {α σ : Type}

/-- Elements that are read have the property of each of them. -/
theorem yields_elementsWithin {element : Reader α} {property : α → Prop}
    (each : Yields element property) (limit : Nat) (first : Bool) :
    Yields (elementsWithin element limit first) fun elements => ∀ one ∈ elements, property one := by
  induction limit generalizing first with
  | zero => exact .throw .ended
  | succ limit ih =>
    refine .after fun further => .ite (fun _ => ?_) fun _ => .pure (List.forall_mem_nil _)
    refine each.bind fun one isOne => (ih false).bind fun others areOthers => .pure ?_
    exact List.forall_mem_cons.mpr ⟨isOne, areOthers⟩

/-- The elements of an array have the property of each of them. -/
theorem yields_elements {element : Reader α} {property : α → Prop}
    (each : Yields element property) :
    Yields (elements element) fun elements => ∀ one ∈ elements, property one :=
  .after fun _ => (yields_elementsWithin each _ _).bind fun _ all => .after fun _ => .pure all

/-- What each field keeps is kept by all fields of an object. -/
theorem yields_fieldsWithin {field : σ → String → Reader σ} {holds : σ → Prop}
    (keeps : ∀ state key, holds state → Yields (field state key) holds) (limit : Nat)
    (first : Bool) {state : σ} (start : holds state) :
    Yields (fieldsWithin field limit first state) holds := by
  induction limit generalizing first state with
  | zero => exact .throw .ended
  | succ limit ih =>
    refine .after fun further => .ite (fun _ => ?_) fun _ => .pure start
    exact .after fun _ => .after fun key =>
      (keeps state key start).bind fun next has => ih false has

/-- What each field keeps is kept by the fields of an object. -/
theorem yields_fields {field : σ → String → Reader σ} {holds : σ → Prop}
    (keeps : ∀ state key, holds state → Yields (field state key) holds) {state : σ}
    (start : holds state) : Yields (fields field state) holds :=
  .after fun _ => yields_fieldsWithin keeps _ _ start

end Lists

/-- The fields of a map are the one that was put in and those that were there. -/
theorem mem_insertField {key : String} {value : Json} {held : List (String × Json)}
    {field : String × Json} (member : field ∈ insertField key value held) :
    field = (key, value) ∨ field ∈ held := by
  induction held with
  | nil => exact .inl (List.mem_singleton.mp member)
  | cons first held ih =>
    rw [insertField] at member
    split at member
    · exact List.mem_cons.mp member
    · split at member
      · exact (List.mem_cons.mp member).imp id (List.mem_cons_of_mem _)
      · rcases List.mem_cons.mp member with rfl | behind
        · exact .inr List.mem_cons_self
        · exact (ih behind).imp id (List.mem_cons_of_mem _)

/-- Putting a field into a map keeps the keys in order. -/
theorem pairwise_insertField {held : List (String × Json)}
    (ascend : (held.map (·.1)).Pairwise (· < ·)) (key : String) (value : Json) :
    ((insertField key value held).map (·.1)).Pairwise (· < ·) := by
  induction held with
  | nil => exact List.pairwise_singleton ..
  | cons first held ih =>
    obtain ⟨smallest, others⟩ := List.pairwise_cons.mp ascend
    rw [insertField]
    split
    · rename_i before
      refine List.pairwise_cons.mpr ⟨fun other member => ?_, ascend⟩
      rcases List.mem_cons.mp member with rfl | behind
      · exact before
      · exact String.lt_trans before (smallest other behind)
    · rename_i notBefore
      split
      · rename_i same
        refine List.pairwise_cons.mpr ⟨fun other member => ?_, others⟩
        rw [same]
        exact smallest other member
      · rename_i different
        have behind : first.1 < key := lt_of_le_of_ne (not_lt.mp notBefore) (Ne.symm different)
        refine List.pairwise_cons.mpr ⟨fun other member => ?_, ih others⟩
        obtain ⟨field, isField, rfl⟩ := List.mem_map.mp member
        rcases mem_insertField isField with rfl | wasThere
        · exact behind
        · exact smallest _ (List.mem_map_of_mem wasThere)

/-- A field with a tidy value keeps a map tidy. -/
theorem yields_mapField {room : Nat} (each : Yields (value room) (Tidy room))
    (held : List (String × Json)) (key : String) (tidy : Tidy (room + 1) (.object held)) :
    Yields (mapField (value room) held key) fun held => Tidy (room + 1) (.object held) := by
  refine .after fun _ => each.bind fun json isTidy => .pure ?_
  obtain ⟨ascend, values⟩ := tidy_object_iff.mp tidy
  refine tidy_object_iff.mpr ⟨pairwise_insertField ascend key json, fun field member => ?_⟩
  rcases mem_insertField member with rfl | wasThere
  · exact isTidy
  · exact values field wasThere

/-- A map without fields is tidy. -/
theorem tidy_empty (room : Nat) : Tidy (room + 1) (.object []) :=
  tidy_object_iff.mpr ⟨List.Pairwise.nil, List.forall_mem_nil _⟩

/-- Maps are tidy if their values are. -/
theorem yields_mapFields {room : Nat} (each : Yields (value room) (Tidy room)) :
    Yields (mapFields (value room)) fun held => Tidy (room + 1) (.object held) :=
  (yields_fields (yields_mapField each) (tidy_empty room)).bind fun _ tidy =>
    .after fun _ => .pure tidy

/-- A reader of values gives what its readers of arrays and objects give, or a tidy value. -/
theorem yields_scalarOr {room : Nat} {array object : Reader Json}
    (forArrays : Yields array (Tidy room)) (forObjects : Yields object (Tidy room)) :
    Yields (scalarOr array object) (Tidy room) := by
  have scalar : ∀ json : Json, json.depth = 0 → Tidy room json := by
    intro json flat
    refine ⟨?_, flat ▸ Nat.zero_le room⟩
    cases json with
    | null | bool | number | string => rfl
    | array | object => contradiction
  refine .after fun next => ?_
  cases next with
  | none => exact .throw .ended
  | some c =>
    refine .ite (fun _ => .after fun _ => forArrays) fun _ => ?_
    refine .ite (fun _ => .after fun _ => forObjects) fun _ => ?_
    refine .ite (fun _ => .after fun _ => .after fun _ => .pure (scalar _ rfl)) fun _ => ?_
    refine .ite (fun _ => .after fun _ => .after fun _ => .pure (scalar _ rfl)) fun _ => ?_
    refine .ite (fun _ => .after fun _ => .pure (scalar _ rfl)) fun _ => ?_
    refine .ite (fun _ => .after fun _ => .pure (scalar _ rfl)) fun _ => ?_
    refine .ite (fun _ => .after fun _ => .pure (scalar _ rfl)) fun _ => ?_
    exact .ite (fun _ => .after fun _ => .pure (scalar _ rfl)) fun _ => .throw .malformed

/-- Values that are read are tidy. -/
theorem yields_value (room : Nat) : Yields (value room) (Tidy room) := by
  induction room with
  | zero => exact yields_scalarOr (.throw .malformed) (.throw .malformed)
  | succ room ih =>
    refine yields_scalarOr ?_ ?_
    · exact (yields_elements ih).bind fun elements all => .pure (tidy_array_iff.mpr all)
    · exact (yields_mapFields ih).bind fun _ tidy => .pure tidy

end ShaderBlocks.Json
