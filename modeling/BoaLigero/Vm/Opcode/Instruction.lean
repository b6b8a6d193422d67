import BoaLigero.Vm.Opcode.Args

/-!
# Instructions of the Bytecode

The opcodes with the operands each of them is declared with (`generate_opcodes!`). An instruction
is an opcode with a value for each of its operands; it is written as the byte of the opcode and
the operands behind it. Every byte is an opcode: the unused ones are reserved.

## Main results

* `Opcode.addressed_cases` — an opcode with an address among its operands has it in front.
* `Instruction.readsBack` — an instruction is decoded from its bytes.
* `Instruction.exists_encode_setAddress`, `Instruction.exists_encode_setAddresses` — which bytes
  of an instruction hold its address, and which ones hold those of a jump table.
-/

namespace BoaLigero.Bytecode

open ByteFormat Machine Argument LawfulArgument

/-- A bytecode offset. -/
abbrev Address := UInt32

/-- The types of operands. -/
inductive OperandType
  | register | index | address | i8 | i16 | i32 | f32 | f64 | u32 | u64 | registers | addresses
  | u32s
deriving DecidableEq

/-- The values of an operand. Registers, indices and addresses are `u32`s. -/
def OperandType.Value : OperandType → Type
  | .register | .index | .address | .u32 => UInt32
  | .i8 => Int8
  | .i16 => Int16
  | .i32 => Int32
  | .f32 => F32
  | .f64 => F64
  | .u64 => UInt64
  | .registers | .addresses | .u32s => List UInt32

instance : (type : OperandType) → Argument type.Value
  | .register | .index | .address | .u32 => inferInstanceAs (Argument UInt32)
  | .i8 => inferInstanceAs (Argument Int8)
  | .i16 => inferInstanceAs (Argument Int16)
  | .i32 => inferInstanceAs (Argument Int32)
  | .f32 => inferInstanceAs (Argument F32)
  | .f64 => inferInstanceAs (Argument F64)
  | .u64 => inferInstanceAs (Argument UInt64)
  | .registers | .addresses | .u32s => inferInstanceAs (Argument (List UInt32))

instance : (type : OperandType) → LawfulArgument type.Value
  | .register | .index | .address | .u32 => inferInstanceAs (LawfulArgument UInt32)
  | .i8 => inferInstanceAs (LawfulArgument Int8)
  | .i16 => inferInstanceAs (LawfulArgument Int16)
  | .i32 => inferInstanceAs (LawfulArgument Int32)
  | .f32 => inferInstanceAs (LawfulArgument F32)
  | .f64 => inferInstanceAs (LawfulArgument F64)
  | .u64 => inferInstanceAs (LawfulArgument UInt64)
  | .registers | .addresses | .u32s => inferInstanceAs (LawfulArgument (List UInt32))

/-- A value for each operand. -/
def Args : List OperandType → Type
  | [] => Unit
  | type :: types => type.Value × Args types

instance Args.instArgument : (types : List OperandType) → Argument (Args types)
  | [] => inferInstanceAs (Argument Unit)
  | type :: types =>
      have := Args.instArgument types
      inferInstanceAs (Argument (type.Value × Args types))

instance Args.instLawfulArgument : (types : List OperandType) → LawfulArgument (Args types)
  | [] => inferInstanceAs (LawfulArgument Unit)
  | type :: types =>
      have := Args.instLawfulArgument types
      inferInstanceAs (LawfulArgument (type.Value × Args types))

/-- The opcodes of the vm, in the order of their bytes. -/
inductive Opcode
  | pop | storeZero | storeOne | storeInt8 | storeInt16 | storeInt32 | storeFloat | storeDouble
  | storeNan | storePositiveInfinity | storeNegativeInfinity | storeNull | storeTrue | storeFalse
  | storeUndefined | storeLiteral | storeRegexp | storeEmptyObject | storeClassPrototype
  | setClassPrototype | setHomeObject | getHomeObject | setPrototype | getPrototype
  | storeNewArray | pushValueToArray | pushElisionToArray | pushIteratorToArray | add | sub | div
  | mul | mod | pow | shiftRight | shiftLeft | unsignedShiftRight | bitOr | bitAnd | bitXor
  | bitNot | «in» | inPrivate | eq | strictEq | notEq | strictNotEq | greaterThan
  | greaterThanOrEq | lessThan | lessThanOrEq | instanceOf | logicalAnd | logicalOr | coalesce
  | typeOf | logicalNot | pos | neg | inc | dec | defVar | defInitVar | putLexicalValue
  | throwMutateImmutable | getArgument | getName | getNameGlobal | getNameGlobalAndLocator
  | getLocator | getLocatorGlobal | getNameAndLocator | getNameOrUndefined | setName
  | setNameGlobal | setNameByLocator | deleteName | getMethod | getLengthProperty
  | getPropertyByName | getPropertyByNameWithThis | getPropertyByValue | getPropertyByValuePush
  | setPropertyByName | setPropertyByNameWithThis | setFunctionName | defineOwnPropertyByName
  | defineClassStaticMethodByName | defineClassMethodByName | setPropertyByValue
  | defineOwnPropertyByValue | defineClassStaticMethodByValue | defineClassMethodByValue
  | setPropertyGetterByName | defineClassStaticGetterByName | defineClassGetterByName
  | setPropertyGetterByValue | defineClassStaticGetterByValue | defineClassGetterByValue
  | setPropertySetterByName | defineClassStaticSetterByName | defineClassSetterByName
  | setPropertySetterByValue | defineClassStaticSetterByValue | defineClassSetterByValue
  | setPrivateField | definePrivateField | setPrivateMethod | setPrivateSetter | setPrivateGetter
  | getPrivateField | pushClassField | pushClassFieldPrivate | pushClassPrivateGetter
  | pushClassPrivateSetter | pushClassPrivateMethod | deletePropertyByName
  | deletePropertyByValue | deleteSuperThrow | copyDataProperties | toPropertyKey | jump
  | jumpIfTrue | jumpIfFalse | jumpIfNotUndefined | jumpIfNullOrUndefined | jumpIfNotLessThan
  | jumpIfNotLessThanOrEqual | jumpIfNotGreaterThan | jumpIfNotGreaterThanOrEqual
  | jumpIfNotEqual | jumpTable | throw | reThrow | exception | maybeException | throwNewTypeError
  | throwNewReferenceError | getFunctionObject | «this» | thisForObjectEnvironmentName
  | superCall | superCallSpread | superCallDerived | bindThisValue | importCall | «case»
  | getFunction | callEval | callEvalSpread | call | callSpread | new | newSpread | checkReturn
  | «return» | asyncGeneratorClose | generator | asyncGenerator | setAccumulator
  | setRegisterFromAccumulator | move | popIntoRegister | pushFromRegister | pushScope
  | pushObjectEnvironment | popEnvironment | incrementLoopIteration | createForInIterator
  | getIterator | getAsyncIterator | iteratorPop | iteratorPush | iteratorNext
  | iteratorUpdateResult | iteratorDone | iteratorFinishAsyncNext | iteratorValue
  | iteratorResult | iteratorToArray | iteratorStackEmpty | createIteratorResult | iteratorReturn
  | concatToString | valueNotNullOrUndefined | restParameterInit | generatorYield
  | asyncGeneratorYield | createPromiseCapability | await | newTarget | importMeta | isObject
  | templateLookup | templateCreate | pushPrivateEnvironment | popPrivateEnvironment
  | createMappedArgumentsObject | createUnmappedArgumentsObject | createDisposableResourceScope
  | addDisposableResource | disposeResources | addAsyncDisposableResource | disposeResourcesAsync
  | pureReaderLoopIteration | pureAffineLoopIteration | purePropertyWriteLoopIteration
  | pureMethodLoopIteration | pureGlobalAffineLoopIteration | pureIndexedReaderLoopIteration
  | pureClosureAffineLoopIteration | pureNumericLoopIteration | reserved14 | reserved15
  | reserved16 | reserved17 | reserved18 | reserved19 | reserved20 | reserved21 | reserved22
  | reserved23 | reserved24 | reserved25 | reserved26 | reserved27 | reserved28 | reserved29
  | reserved30 | reserved31 | reserved32 | reserved33 | reserved34 | reserved35 | reserved36
  | reserved37 | reserved38 | reserved39 | reserved40 | reserved41 | reserved42 | reserved43
  | reserved44 | reserved45 | reserved46 | reserved47 | reserved48 | reserved49 | reserved50
  | reserved51 | reserved52 | reserved53 | reserved54 | reserved55 | reserved56 | defEvalVar
deriving DecidableEq

namespace Opcode

/-- The operands an opcode is declared with. -/
def operands : Opcode → List OperandType
  | .storeZero | .storeOne | .storeNan | .storePositiveInfinity | .storeNegativeInfinity
  | .storeNull | .storeTrue | .storeFalse | .storeUndefined | .storeEmptyObject | .getHomeObject
  | .getPrototype | .storeNewArray | .pushElisionToArray | .pushIteratorToArray | .bitNot
  | .typeOf | .logicalNot | .pos | .neg | .setNameByLocator | .throw | .exception
  | .getFunctionObject | .«this» | .thisForObjectEnvironmentName | .bindThisValue
  | .setAccumulator | .setRegisterFromAccumulator | .popIntoRegister | .pushFromRegister
  | .pushObjectEnvironment | .createForInIterator | .getIterator | .getAsyncIterator
  | .iteratorUpdateResult | .iteratorDone | .iteratorValue | .iteratorResult | .iteratorToArray
  | .iteratorStackEmpty | .valueNotNullOrUndefined | .restParameterInit | .generatorYield
  | .asyncGeneratorYield | .await | .newTarget | .importMeta | .isObject
  | .createMappedArgumentsObject | .createUnmappedArgumentsObject | .addDisposableResource
  | .addAsyncDisposableResource =>
      [.register]
  | .storeInt8 =>
      [.register, .i8]
  | .storeInt16 =>
      [.register, .i16]
  | .storeInt32 =>
      [.register, .i32]
  | .storeFloat =>
      [.register, .f32]
  | .storeDouble =>
      [.register, .f64]
  | .storeLiteral | .defInitVar | .putLexicalValue | .getName | .getNameAndLocator
  | .getNameOrUndefined | .setName | .deleteName | .getMethod | .deletePropertyByName
  | .getFunction | .createIteratorResult =>
      [.register, .index]
  | .storeRegexp | .getNameGlobal | .getNameGlobalAndLocator | .setNameGlobal =>
      [.register, .index, .index]
  | .storeClassPrototype | .setClassPrototype | .add | .sub | .div | .mul | .mod | .pow
  | .shiftRight | .shiftLeft | .unsignedShiftRight | .bitOr | .bitAnd | .bitXor | .«in» | .eq
  | .strictEq | .notEq | .strictNotEq | .greaterThan | .greaterThanOrEq | .lessThan
  | .lessThanOrEq | .instanceOf | .defineOwnPropertyByValue | .defineClassStaticMethodByValue
  | .defineClassMethodByValue | .setPropertyGetterByValue | .defineClassStaticGetterByValue
  | .defineClassGetterByValue | .setPropertySetterByValue | .defineClassStaticSetterByValue
  | .defineClassSetterByValue =>
      [.register, .register, .register]
  | .setHomeObject | .setPrototype | .pushValueToArray | .inc | .dec | .deletePropertyByValue
  | .toPropertyKey | .maybeException | .move | .iteratorPop | .iteratorPush
  | .iteratorFinishAsyncNext | .iteratorReturn | .disposeResources =>
      [.register, .register]
  | .inPrivate =>
      [.register, .index, .register]
  | .logicalAnd | .logicalOr | .coalesce | .jumpIfTrue | .jumpIfFalse | .jumpIfNotUndefined
  | .jumpIfNullOrUndefined =>
      [.address, .register]
  | .defVar | .throwMutateImmutable | .getLocator | .throwNewTypeError | .throwNewReferenceError
  | .superCall | .callEvalSpread | .call | .new | .pushScope | .defEvalVar =>
      [.index]
  | .getArgument =>
      [.index, .register]
  | .getLocatorGlobal | .callEval =>
      [.index, .index]
  | .getLengthProperty | .getPropertyByName | .setPropertyByName | .setFunctionName
  | .defineOwnPropertyByName | .defineClassStaticMethodByName | .defineClassMethodByName
  | .setPropertyGetterByName | .defineClassStaticGetterByName | .defineClassGetterByName
  | .setPropertySetterByName | .defineClassStaticSetterByName | .defineClassSetterByName
  | .setPrivateField | .definePrivateField | .setPrivateMethod | .setPrivateSetter
  | .setPrivateGetter | .getPrivateField | .pushClassFieldPrivate | .pushClassPrivateGetter
  | .pushClassPrivateSetter | .importCall =>
      [.register, .register, .index]
  | .getPropertyByNameWithThis | .setPropertyByNameWithThis | .pushClassField
  | .pushClassPrivateMethod =>
      [.register, .register, .register, .index]
  | .getPropertyByValue | .getPropertyByValuePush | .setPropertyByValue =>
      [.register, .register, .register, .register, .index]
  | .copyDataProperties =>
      [.register, .register, .registers]
  | .jump =>
      [.address]
  | .jumpIfNotLessThan | .jumpIfNotLessThanOrEqual | .jumpIfNotGreaterThan
  | .jumpIfNotGreaterThanOrEqual | .jumpIfNotEqual | .«case» =>
      [.address, .register, .register]
  | .jumpTable =>
      [.u32, .addresses]
  | .concatToString =>
      [.register, .registers]
  | .templateLookup =>
      [.address, .u64, .register]
  | .templateCreate =>
      [.u64, .register, .u32s]
  | .pushPrivateEnvironment =>
      [.register, .u32s]
  | .disposeResourcesAsync =>
      [.register, .register, .register, .register]
  | _ => []

/-- The byte of an opcode. -/
def encode (op : Opcode) : UInt8 := UInt8.ofNat op.ctorIdx

/-- The opcode of a byte. -/
def decode (instruction : UInt8) : Opcode := Opcode.ofNat instruction.toNat

@[simp]
theorem decode_encode (op : Opcode) : decode op.encode = op := by
  cases op <;> rfl

/-- Whether there is no address behind the first operand. -/
def wellAddressed : List OperandType → Bool
  | [] => true
  | _ :: types => .address ∉ types

/-- **An address stands in front** of the other operands, and there is only one. -/
theorem addressed_cases (op : Opcode) (h : .address ∈ op.operands) :
    ∃ types, op.operands = .address :: types ∧ .address ∉ types := by
  have hcheck : wellAddressed op.operands := by
    cases op <;> rfl
  rcases hops : op.operands with _ | ⟨type, types⟩
  · simp [hops] at h
  · rw [hops] at h hcheck
    have hnot : .address ∉ types := by simpa [wellAddressed] using hcheck
    obtain rfl | h := List.mem_cons.mp h
    · exact ⟨types, rfl, hnot⟩
    · exact absurd h hnot

end Opcode

/-! ### Operands -/

theorem length_encode_u32 (value : UInt32) : (Argument.encode value).length = 4 :=
  length_toLeBytes 4 value.toNat

/-- The bytes of numbers in a row. -/
theorem length_flatMap_encode (values : List UInt32) :
    (values.flatMap Argument.encode).length = 4 * values.length := by
  induction values with
  | nil => rfl
  | cons value values ih =>
      rw [List.flatMap_cons, List.length_append, ih, length_encode_u32, List.length_cons]
      omega

/-- A vector of numbers takes more bytes than it has elements. -/
theorem length_encode_vector (values : List UInt32) :
    (Argument.encode values).length = 4 + 4 * values.length := by
  have hvalues := length_flatMap_encode values
  have hlen := length_encode_u32 (UInt32.ofNat values.length)
  simp only [Argument.encode, List.length_append] at hvalues hlen ⊢
  omega

theorem OperandType.fits_of_length : (type : OperandType) → (value : type.Value) →
    (Argument.encode value).length < 2 ^ 32 → Fits value
  | .register, _, _ | .index, _, _ | .address, _, _ | .u32, _, _ => trivial
  | .i8, _, _ | .i16, _, _ | .i32, _, _ | .f32, _, _ | .f64, _, _ | .u64, _, _ => trivial
  | .registers, values, h | .addresses, values, h | .u32s, values, h => by
      have hlength := length_encode_vector values
      have hbound : (Argument.encode (A := List UInt32) values).length < 2 ^ 32 := h
      exact ⟨by omega, fun _ _ => trivial⟩

namespace Args

/-- Operands whose bytes are fewer than `2 ^ 32` are written without loss. -/
theorem fits_of_length : (types : List OperandType) → (args : Args types) →
    (Argument.encode args).length < 2 ^ 32 → Fits args
  | [], _, _ => trivial
  | type :: types, args, h => by
      have hsplit : (Argument.encode args).length =
          (Argument.encode args.1).length + (Argument.encode args.2).length :=
        List.length_append
      exact ⟨type.fits_of_length args.1 (by omega), fits_of_length types args.2 (by omega)⟩

/-- The operands with another address in front. -/
def setAddress : {types : List OperandType} → Args types → Address → Args types
  | .address :: _, (_, rest), target => (target, rest)
  | _, args, _ => args

/-- The addresses of a jump table. -/
def addresses : {types : List OperandType} → Args types → List Address
  | [.u32, .addresses], (_, table, _) => table
  | _, _ => []

/-- The operands of a jump table with other addresses. -/
def setAddresses : {types : List OperandType} → Args types → List Address → Args types
  | [.u32, .addresses], (index, _, rest), table => (index, table, rest)
  | _, args, _ => args

theorem exists_encode_setAddress {types : List OperandType} (args : Args types)
    (h : ∃ rest, types = .address :: rest) :
    ∃ old rest, old.length = 4 ∧ Argument.encode args = old ++ rest ∧
      ∀ target, Argument.encode (args.setAddress target) = toLeBytes 4 target.toNat ++ rest := by
  obtain ⟨types, rfl⟩ := h
  obtain ⟨address, rest⟩ := args
  exact ⟨toLeBytes 4 address.toNat, Argument.encode rest, length_toLeBytes .., rfl, fun _ => rfl⟩

theorem exists_encode_setAddresses {types : List OperandType} (args : Args types)
    (h : types = [.u32, .addresses]) :
    ∃ index, index.length = 4 ∧
      ∀ table, Argument.encode (args.setAddresses table) =
          index ++ (Argument.encode (UInt32.ofNat table.length) ++ table.flatMap Argument.encode) ∧
        (args.setAddresses table).addresses = table ∧ args.setAddresses args.addresses = args := by
  subst h
  obtain ⟨index, table, rest⟩ := args
  refine ⟨toLeBytes 4 (UInt32.toNat index), length_toLeBytes .., fun table => ⟨?_, rfl, rfl⟩⟩
  exact congrArg (toLeBytes 4 (UInt32.toNat index) ++ ·) (List.append_nil
    (Argument.encode (UInt32.ofNat table.length) ++ table.flatMap Argument.encode))

end Args

/-! ### Instructions -/

/-- An instruction: an opcode and its operands. -/
structure Instruction where
  opcode : Opcode
  args : Args opcode.operands

namespace Instruction

/-- The bytes of an instruction (`encode_instruction`). -/
def encode (i : Instruction) : List UInt8 := i.opcode.encode :: Argument.encode i.args

/-- The instruction at a position, and the position behind it (`next_instruction`). -/
def decode (bytes : List UInt8) (pc : ℕ) : Option (Instruction × ℕ) := do
  let opcode := Opcode.decode (← bytes[pc]?)
  let (args, pc) ← (Argument.decode bytes (pc + 1) : Option (Args opcode.operands × ℕ))
  return (⟨opcode, args⟩, pc)

/-- **An instruction is decoded from its bytes**, wherever they stand. -/
theorem readsBack {i : Instruction} (h : i.encode.length < 2 ^ 32) :
    ReadsBack decode i.encode i := by
  obtain ⟨op, args⟩ := i
  intro bytes pc hat
  have hfetch : bytes[pc]? = some op.encode := hat.fetch
  obtain ⟨-, hargs⟩ := FragmentAt.append (f := [op.encode]) hat
  have hfits : Fits args := Args.fits_of_length _ args (Nat.lt_of_succ_lt h)
  have hread := LawfulArgument.readsBack args hfits bytes _ hargs
  have hdecode := op.decode_encode
  simp only [decode, hfetch, Option.bind_eq_bind, Option.bind_some]
  generalize Opcode.decode op.encode = op' at hdecode ⊢
  subst hdecode
  rw [List.length_singleton] at hread
  simp only [hread, Option.bind_some, Option.pure_def, encode, List.length_cons, Nat.add_assoc,
    Nat.add_comm 1]

/-- The instruction with another address. -/
def setAddress (i : Instruction) (target : Address) : Instruction :=
  { i with args := i.args.setAddress target }

/-- The addresses of a jump table. -/
def addresses (i : Instruction) : List Address := i.args.addresses

/-- The jump table with other addresses. -/
def setAddresses (i : Instruction) (table : List Address) : Instruction :=
  { i with args := i.args.setAddresses table }

/-- **The address of an instruction** is held by the four bytes behind the opcode. -/
theorem exists_encode_setAddress {i : Instruction} (h : .address ∈ i.opcode.operands) :
    ∃ old rest, old.length = 4 ∧ i.encode = i.opcode.encode :: (old ++ rest) ∧
      ∀ target, (i.setAddress target).encode =
        i.opcode.encode :: (toLeBytes 4 target.toNat ++ rest) := by
  obtain ⟨types, hops, -⟩ := i.opcode.addressed_cases h
  obtain ⟨old, rest, hold, hencode, hset⟩ := Args.exists_encode_setAddress i.args ⟨types, hops⟩
  exact ⟨old, rest, hold, congrArg _ hencode, fun target => congrArg _ (hset target)⟩

/-- **The addresses of a jump table** are held by the bytes behind its index and its length. -/
theorem exists_encode_setAddresses {i : Instruction} (h : i.opcode = .jumpTable) :
    ∃ front, front.length = 5 ∧ i.setAddresses i.addresses = i ∧
      ∀ table, (i.setAddresses table).encode =
        front ++
          (Argument.encode (UInt32.ofNat table.length) ++ table.flatMap Argument.encode) := by
  obtain ⟨op, args⟩ := i
  obtain rfl : op = .jumpTable := h
  obtain ⟨index, hindex, htable⟩ := Args.exists_encode_setAddresses args rfl
  refine ⟨Opcode.jumpTable.encode :: index, by rw [List.length_cons, hindex], ?_,
    fun table => congrArg _ (htable table).1⟩
  exact congrArg (Instruction.mk .jumpTable) (htable []).2.2

end Instruction

end BoaLigero.Bytecode
