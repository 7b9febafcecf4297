import TypedCircuit.Command.Compile
import TypedCircuit.Command.Flatten
import TypedCircuit.Proofs.Circuit.Acceptance
import TypedCircuit.Proofs.Documents.Readable
import TypedCircuit.Proofs.Hash.Collisions

/-!
# What the commands make of a shape and a value

Once a shape document describes a type, flattening and compiling depend on one thing only:
whether the value document is read as a value of the type. If it is not, both commands say so
and end with exit code one. If it is, the value flattens to constants, the flattening comes back
as the value, and a pass that proves the value leaves the circuit that was compiled; both
commands end with exit code zero. The errors and refusals that come after reading never occur.

A command is a sequence of steps that print, so what it prints is found by taking its steps one
after the other.

## Main results

* `Command.flatten_unread`, `Command.flatten_read` — flattening, by whether a value is read.
* `Command.compile_unread`, `Command.compile_read` — compiling, by whether a value is read.
* `Command.outcomes_agree` — what the two commands print and how they end.
-/

namespace TypedCircuit

namespace File

/-- A file holds a shape document of a type. The document is in order, as all are that were
read. -/
def Describes (file : File) (type : Descriptor) : Prop :=
  ∃ json d, file.source = .document json ∧ json.Ordered ∧ ShapeDocument.parse json = .ok d ∧
    d.descriptor = .ok type

variable {file : File} {type : Descriptor}

/-- A text that was read describes a type as soon as it is a shape document of the type. -/
theorem describes_of_parse {text : String} {json : Json} (hText : Json.parse text = some json)
    (hSource : file.source = .document json) {d : ShapeDocument}
    (hParse : ShapeDocument.parse json = .ok d) (hType : d.descriptor = .ok type) :
    file.Describes type :=
  ⟨json, d, hSource, Json.parse_ordered hText, hParse, hType⟩

theorem Describes.readable (h : file.Describes type) {r : Registry} : type.Readable r := by
  obtain ⟨_, _, -, hOrdered, hParse, hType⟩ := h
  exact ShapeDocument.readable hOrdered hParse hType

theorem Describes.supportsHashInput (h : file.Describes type) :
    type.supportsHashInput = true := by
  obtain ⟨_, _, -, -, -, hType⟩ := h
  exact ShapeDocument.supportsHashInput hType

end File

namespace Command

/-! ## Steps -/

/-- What is printed by printing lines. -/
def printed (lines : List String) : String :=
  lines.foldl (fun out line => out ++ line ++ "\n") ""

theorem printLine_eq (line : String) (lines : List String) :
    printLine line (printed lines) = (.ok (), printed (lines ++ [line])) := by
  rw [printed, printed, List.foldl_append]
  rfl

theorem printJson_eq (json : Json) (lines : List String) :
    printJson json (printed lines) = (.ok (), printed (lines ++ [json.pretty])) :=
  printLine_eq json.pretty lines

theorem document_eq {file : File} {json : Json} (h : file.source = .document json)
    (out : String) : document file out = (.ok json, out) := by
  unfold document
  rw [h]
  rfl

theorem require_ok {α : Type} {result : Except Error α} {a : α} (h : result = .ok a)
    (out : String) : require result out = (.ok a, out) := by
  rw [h]
  rfl

theorem whileDoing_ok {α : Type} {result : Except Error α} {a : α} (h : result = .ok a)
    (doing out : String) : whileDoing doing result out = (.ok a, out) := by
  rw [h]
  rfl

/-- The commands find the type that a shape document describes. -/
theorem describes_bind {shape : File} {type : Descriptor} (h : shape.Describes type)
    (out : String) {α : Type} (f : Descriptor → Command α) :
    (do let d ← shapeDocument shape; let type ← descriptor d; f type) out = f type out := by
  obtain ⟨json, d, hSource, -, hParse, hType⟩ := h
  have hDocument : shapeDocument shape out = (.ok d, out) := by
    unfold shapeDocument
    rw [bind_state_ok (document_eq hSource out), hParse]
    rfl
  have hDescriptor : descriptor d out = (.ok type, out) := by
    unfold descriptor
    rw [hType]
    rfl
  rw [bind_state_ok hDocument, bind_state_ok hDescriptor]

theorem outcome_eq {command : Command Nat} {result : Except CommandError Nat} {out : String}
    (h : command (printed []) = (result, out)) : outcome command = (out, result) := by
  show ((command (printed [])).2, (command (printed [])).1) = _
  rw [h]

section

variable {shape value : File} {type : Descriptor} {json : Json}

/-- What is printed if no value of a type is read. -/
def mismatch (type : Descriptor) : String :=
  "FAIL: value does not match shape " ++ (Registry.empty.codec type).typeName

/-! ## Flattening -/

/-- Elements as decimal strings. -/
def numerals (xs : List Element) : Json := .array (xs.map fun x => .string x.text)

/-- A flattening, with the elements that are hashed if they are wanted. -/
def flattening (xs : List Element) (hashed? : Option (List Element)) : Json :=
  .ofMembers (("fields", numerals xs) :: match hashed? with
    | some ys => [("hash_input", numerals ys)]
    | none => [])

/-- Signals whose values are known can be written. -/
theorem decimals_eq {signals : List Signal} {xs : List Element}
    (h : (signals.mapM fun s : Signal => s.value) = .ok xs) :
    decimals signals = .ok (numerals xs) := by
  have hTexts : signals.mapM Codec.decimalJson =
      .ok (xs.map fun x => Json.string x.text) := by
    rw [mapM_eq_ok, List.forall₂_map_right_iff]
    refine (mapM_eq_ok.1 h).imp fun s x hx => ?_
    unfold Codec.decimalJson
    rw [hx]
    rfl
  unfold decimals
  rw [hTexts]
  rfl

theorem flatten_unread (hShape : shape.Describes type) (hValue : value.source = .document json)
    (hRead : (Registry.empty.codec type).fromJson json = .ok none) (hashInput verify : Bool) :
    outcome (flatten shape value hashInput verify) = (printed [mismatch type], .ok 1) := by
  refine outcome_eq ?_
  unfold flatten
  rw [describes_bind hShape]
  dsimp only
  rw [bind_state_ok (document_eq hValue _), bind_state_ok (whileDoing_ok hRead _ _)]
  rfl

theorem flatten_read (hShape : shape.Describes type) (hValue : value.source = .document json)
    {v : Value} (hRead : (Registry.empty.codec type).fromJson json = .ok (some v))
    {xs : List Element}
    (hFlat : (Registry.empty.codec type).toFields v = .ok (xs.map .constant))
    {input : HashInput} (hInput : (Registry.empty.codec type).toInput v = .ok input)
    {ys : List Element} (hHashed : decimals (hashedElements input) = .ok (numerals ys))
    (hBack : roundTrips (Registry.empty.codec type) v (xs.map .constant) = .ok true)
    (hashInput verify : Bool) :
    outcome (flatten shape value hashInput verify) =
      (printed [(flattening xs (if hashInput then some ys else none)).pretty], .ok 0) := by
  refine outcome_eq ?_
  have hShown : decimals (xs.map .constant) = .ok (numerals xs) :=
    decimals_eq (values_constants xs)
  unfold flatten
  rw [describes_bind hShape]
  dsimp only
  rw [bind_state_ok (document_eq hValue _), bind_state_ok (whileDoing_ok hRead _ _)]
  dsimp only
  rw [bind_state_ok (whileDoing_ok hFlat _ _), bind_state_ok (require_ok hShown _)]
  -- What is done with the hashed elements, whether there are any or not.
  have hRest : ∀ hashed : List (String × Json), (do
      printJson (.ofMembers (("fields", numerals xs) :: hashed))
      if !verify then pure 0
      else
        if ← require (roundTrips (Registry.empty.codec type) v (xs.map .constant)) then pure 0
        else
          printLine "FAIL: flattening does not round-trip"
          pure 1 : Command Nat) (printed []) =
        (.ok 0, printed [(Json.ofMembers (("fields", numerals xs) :: hashed)).pretty]) := by
    intro hashed
    rw [bind_state_ok (printJson_eq _ [])]
    cases verify with
    | false => rfl
    | true =>
        have hVerify : ¬(!true) = true := Bool.false_ne_true
        rw [if_neg hVerify, bind_state_ok (require_ok hBack _)]
        rfl
  cases hashInput with
  | false => exact hRest []
  | true =>
      rw [if_pos rfl, bind_state_ok (whileDoing_ok hInput _ _),
        bind_state_ok (require_ok hHashed _)]
      exact hRest _

/-! ## Compiling -/

theorem compile_unread (hShape : shape.Describes type) (hValue : value.source = .document json)
    {cs : ConstraintSystem} (hCompiled : compiledSystem type = .ok cs)
    (hRead : (Registry.empty.codec type).fromJson json = .ok none) (gates : Bool) :
    outcome (compile shape (some value) gates) =
      (printed [(summary "compiled" cs gates).pretty, mismatch type], .ok 1) := by
  refine outcome_eq ?_
  unfold compile
  rw [describes_bind hShape, bind_state_ok (require_ok hCompiled _),
    bind_state_ok (printJson_eq _ [])]
  dsimp only
  rw [bind_state_ok (document_eq hValue _), bind_state_ok (require_ok hRead _)]
  rfl

theorem compile_read (hShape : shape.Describes type) (hValue : value.source = .document json)
    {cs : ConstraintSystem} (hCompiled : compiledSystem type = .ok cs) {v : Value}
    (hRead : (Registry.empty.codec type).fromJson json = .ok (some v))
    (hProved : provedSystem type v = .ok cs) (gates : Bool) :
    outcome (compile shape (some value) gates) =
      (printed [(summary "compiled" cs gates).pretty, (summary "proved" cs gates).pretty,
        "OK: prove pass matches compiled constraint system"], .ok 0) := by
  refine outcome_eq ?_
  unfold compile
  rw [describes_bind hShape, bind_state_ok (require_ok hCompiled _),
    bind_state_ok (printJson_eq _ [])]
  dsimp only
  rw [bind_state_ok (document_eq hValue _), bind_state_ok (require_ok hRead _)]
  dsimp only
  rw [hProved]
  dsimp only
  rw [bind_state_ok (printJson_eq _ _), if_pos rfl, bind_state_ok (printLine_eq _ _)]
  rfl

end

/-! ## Values that are read -/

section

variable {type : Descriptor} {law : Part.Law} {v : Value} {xs : List Element}

open Construction in
theorem compiledSystem_eq (hLaw : (Registry.empty.codec type).part.Lawful law) :
    compiledSystem type = .ok (recordedRun .compile
      (List.replicate law.width.fields none) law.rules).constraintSystem :=
  compile_witness (s := Session.start [] ()) hLaw _ rfl

open Construction in
/-- A value that is as the rules say is proved, and the pass leaves what a compile pass does. -/
theorem provedSystem_eq (hLaw : (Registry.empty.codec type).part.Lawful law)
    (hFlat : (Registry.empty.codec type).toFields v = .ok (xs.map .constant))
    (hHolds : RulesHold law.rules xs) :
    provedSystem type v = .ok (recordedRun .compile
      (List.replicate law.width.fields none) law.rules).constraintSystem := by
  obtain ⟨out, hOut⟩ := prove_witness (s := Session.start [] ()) hLaw hFlat hHolds
  have hCount : (xs.map some).length =
      (List.replicate law.width.fields (none : Option Element)).length := by
    have hFields := hLaw.fields_length hFlat
    rw [List.length_map] at hFields ⊢
    rw [List.length_replicate, hFields]
  rw [constraintSystem_recordedRun .prove .compile law.rules hCount] at hOut
  exact bind_eq_ok.2 ⟨_, hOut, rfl⟩

/-- A value that stands in the form in which values come back is the same when it does. -/
theorem roundTrips_eq {c : Codec} (hLaw : c.part.Lawful law) (hSettles : c.part.Settles law v)
    (hFlat : c.toFields v = .ok (xs.map .constant)) :
    roundTrips c v (xs.map .constant) = .ok true := by
  have hBack : c.ofFieldsWithAux (xs.map .constant) (c.auxiliary v) = .ok v :=
    (hLaw.rebuild_flatten hFlat).trans (congrArg Except.ok hSettles.canonical_eq)
  refine bind_eq_ok.2 ⟨v, hBack, bind_eq_ok.2 ⟨true, hSettles.settled.sameValue_self, ?_⟩⟩
  refine bind_eq_ok.2 ⟨_, hFlat, ?_⟩
  exact congrArg Except.ok (beq_self_eq_true _)

/-- A value made of constants has a hash input whose elements are known. -/
theorem exists_hashed {r : Registry} (hGrounded : ∀ name ∈ type.mentions, r.Grounded name)
    (hInput : type.supportsHashInput = true)
    (hFlat : (r.codec type).toFields v = .ok (xs.map .constant)) :
    ∃ input ys, (r.codec type).toInput v = .ok input ∧
      decimals (hashedElements input) = .ok (numerals ys) := by
  obtain ⟨slots, hSlots⟩ := Registry.encodes_codec hGrounded hInput
  have hPacked : (((HashInput.place slots (xs.map .constant)).pack []).1.mapM
      fun s : Signal => s.value) = .ok (HashInput.packedValues slots xs) :=
    HashInput.pack_place_values (values_eq_ok.1 (values_constants xs)) (.inl rfl)
  refine ⟨_, _, ?_, decimals_eq hPacked⟩
  unfold Codec.toInput
  rw [Registry.codec_hashInput, if_pos hInput]
  exact hSlots.input_eq (Codec.flatten_of_toFields hFlat)

end

/-! ## Outcomes -/

/--
For a file that holds a shape document of a type and a file that holds any document, neither
flattening, with whatever options, nor compiling ends in an error. If the document is no value of
the type, both commands print that it is not and end with exit code one; this is found after the
circuit of the type has been compiled. Otherwise both end with exit code zero: flattening prints
the elements of the value, which come back as the value, and the elements that are hashed if they
are wanted; compiling prints the circuit that was compiled and the circuit that was proved, which
are the same.
-/
theorem outcomes_agree {shape value : File} {type : Descriptor} {json : Json}
    (hShape : shape.Describes type) (hValue : value.source = .document json) :
    ∃ cs, compiledSystem type = .ok cs ∧
      (((Registry.empty.codec type).fromJson json = .ok none ∧
          (∀ hashInput verify, outcome (flatten shape value hashInput verify) =
            (printed [mismatch type], .ok 1)) ∧
          ∀ gates, outcome (compile shape (some value) gates) =
            (printed [(summary "compiled" cs gates).pretty, mismatch type], .ok 1)) ∨
        ∃ v xs input ys, (Registry.empty.codec type).fromJson json = .ok (some v) ∧
          (Registry.empty.codec type).toFields v = .ok (xs.map .constant) ∧
          roundTrips (Registry.empty.codec type) v (xs.map .constant) = .ok true ∧
          (Registry.empty.codec type).toInput v = .ok input ∧
          decimals (hashedElements input) = .ok (numerals ys) ∧
          provedSystem type v = .ok cs ∧
          (∀ hashInput verify, outcome (flatten shape value hashInput verify) =
            (printed [(flattening xs (if hashInput then some ys else none)).pretty], .ok 0)) ∧
          ∀ gates, outcome (compile shape (some value) gates) =
            (printed [(summary "compiled" cs gates).pretty, (summary "proved" cs gates).pretty,
              "OK: prove pass matches compiled constraint system"], .ok 0)) := by
  have hReadable : type.Readable .empty := hShape.readable
  obtain ⟨law, hLaw, hReads⟩ := hReadable.documented
  have hCompiled := compiledSystem_eq hLaw
  refine ⟨_, hCompiled, ?_⟩
  obtain ⟨v?, hRead⟩ := hReads.total json
  cases v? with
  | none =>
      exact .inl ⟨hRead, flatten_unread hShape hValue hRead,
        compile_unread hShape hValue hCompiled hRead⟩
  | some v =>
      have hSettles := hReads.settles ⟨json, hRead⟩
      obtain ⟨xs, hFlat, hHolds⟩ := hSettles.flattens
      obtain ⟨input, ys, hInput, hHashed⟩ := exists_hashed hReadable.regular.grounded
        hShape.supportsHashInput hFlat
      have hBack := roundTrips_eq hLaw hSettles hFlat
      have hProved := provedSystem_eq hLaw hFlat hHolds
      exact .inr ⟨v, xs, input, ys, hRead, hFlat, hBack, hInput, hHashed, hProved,
        flatten_read hShape hValue hRead hFlat hInput hHashed hBack,
        compile_read hShape hValue hCompiled hRead hProved⟩

/-! ## A switch with a count -/

/-- The shape of a switch with a count, as a document. -/
private def switchShape : File :=
  ⟨"shape.json", .document (.object
    [("shape", .object [("count", .string "UInt32"), ("on", .string "Bool")])])⟩

/-- The type of a switch with a count. -/
private def switchType : Descriptor :=
  .structural (.object [("count", .ofLeaf .uint32), ("on", .ofLeaf .boolean)])

/-- A document of a switch that is in some position. -/
private def switchValue (position : Json) : File :=
  ⟨"value.json", .document (.object [("count", .nat 7), ("on", position)])⟩

private theorem describes_switch : switchShape.Describes switchType := by
  refine ⟨_, _, rfl, ?_, rfl, rfl⟩
  refine .object (List.pairwise_singleton _ _) (List.forall_mem_singleton.2 ?_)
  refine .object (List.pairwise_cons.2 ⟨?_, List.pairwise_singleton _ _⟩) ?_
  · exact List.forall_mem_singleton.2 (by decide)
  · exact List.forall_mem_cons.2 ⟨.string _, List.forall_mem_singleton.2 (.string _)⟩

/-- Both commands accept a switch that is on, and refuse one of which the position is a word. -/
theorem outcomes_switch :
    switchShape.Describes switchType ∧
      (outcome (flatten switchShape (switchValue (.bool true)) true true)).2 = .ok 0 ∧
      (outcome (compile switchShape (some (switchValue (.bool true))) true)).2 = .ok 0 ∧
      (outcome (flatten switchShape (switchValue (.string "on")) true true)).2 = .ok 1 ∧
      (outcome (compile switchShape (some (switchValue (.string "on"))) true)).2 = .ok 1 := by
  have hOn : (Registry.empty.codec switchType).fromJson
      (.object [("count", .nat 7), ("on", .bool true)]) =
        .ok (some (.record none [("count", .ofElement 7), ("on", .ofBool true)])) := rfl
  have hWord : (Registry.empty.codec switchType).fromJson
      (.object [("count", .nat 7), ("on", .string "on")]) = .ok none := rfl
  refine ⟨describes_switch, ?_⟩
  obtain ⟨_, -, hRefused | hAccepted⟩ :=
    @outcomes_agree _ (switchValue (.bool true)) _ _ describes_switch rfl
  · cases hOn.symm.trans hRefused.1
  obtain ⟨_, _, _, _, -, -, -, -, -, -, hFlatten, hCompile⟩ := hAccepted
  obtain ⟨_, -, hRefused | hAccepted⟩ :=
    @outcomes_agree _ (switchValue (.string "on")) _ _ describes_switch rfl
  · refine ⟨?_, ?_, ?_, ?_⟩
    · rw [hFlatten]
    · rw [hCompile]
    · rw [hRefused.2.1]
    · rw [hRefused.2.2]
  · obtain ⟨_, _, _, _, hRead, -⟩ := hAccepted
    cases hWord.symm.trans hRead

end Command

end TypedCircuit
