/-
Between instances of models and values.

`Model.lower` gives the value of an instance, `Model.lift` reads an instance off a value.
Sequences, records and choices look through overlays; a flag, an integer or a byte string has to
stand there as it is.  Sequences may be held as byte strings.
-/
import SimpleSerialize.Model

namespace SimpleSerialize

namespace Model

/-- What is found under the overlays of a value, in words; a pruned value is an overlay still. -/
def foundKind (seen : Option Value) : String :=
  match seen with
  | some v => v.kind
  | none => "virtual"

/-- The elements of a sequence. -/
def elements (model : String) (v : Value) : Except DecodeError (List Value) :=
  match v.concrete with
  | some (.list items) => .ok items
  | some (.bytes bs) => .ok (bs.map fun b => .uint b.toUInt64)
  | seen => .error (.modelMismatch model "sequence" (foundKind seen))

/-- The fields of a container that has to have a given number of them. -/
def fieldsOf (model : String) (count : Nat) (v : Value) : Except DecodeError (List Value) :=
  match v.concrete with
  | some (.container fields) =>
    if fields.length = count then .ok fields
    else .error (.modelMismatch model "container" "container with a different field count")
  | seen => .error (.modelMismatch model "container" (foundKind seen))

/-- The selector and the body of a union. -/
def selected (model : String) (v : Value) : Except DecodeError (UInt32 × Option Value) :=
  match v.concrete with
  | some (.union selector body) => .ok (selector, body)
  | seen => .error (.modelMismatch model "union" (foundKind seen))

/-- An integer of a machine word. -/
def liftWord (size : WordSize) (n : Nat) :
    Except DecodeError (Fin (LittleEndian.capacity size.bytes)) :=
  let name := (Model.uint size).shapeName
  if h : n < LittleEndian.capacity size.bytes then .ok ⟨n, h⟩
  else .error (.modelMismatch name name "wider integer")

/-- The error of a union that selects none of the variants of a choice. -/
def noVariant (model : String) : DecodeError :=
  .modelMismatch model "declared variant" "union with unexpected selector"

mutual

/-- The instance that a value stands for. -/
def lift : (m : Model) → Value → Except DecodeError m.Instance
  | .bool, .bool b => .ok b
  | .bool, v => .error (.modelMismatch (shapeName .bool) "bool" v.kind)
  | .uint size, .uint n => liftWord size n.toNat
  | .uint .sixteen, .bigUint n => liftWord .sixteen n
  | .uint size, v => .error (.modelMismatch (shapeName (.uint size)) "integer" v.kind)
  | .uint256, .uint n => .ok n.toNat
  | .uint256, .bigUint n =>
    if n < LittleEndian.capacity 32 then .ok n
    else .error (.modelMismatch (shapeName .uint256) (shapeName .uint256) "wider integer")
  | .uint256, v => .error (.modelMismatch (shapeName .uint256) "integer" v.kind)
  | .bytes length, .bytes bs =>
    (FixedBytes.ofBytes? length.toNat bs).mapError fun _ =>
      .modelMismatch (shapeName (.bytes length)) "fixed byte-string" "byte-string of another width"
  | .bytes length, v => .error (.modelMismatch (shapeName (.bytes length)) "bytes" v.kind)
  | .list element, v => do
    (← elements (shapeName (.list element)) v).mapM fun item => element.lift item
  | .option body, v => do
    match ← selected (shapeName (.option body)) v with
    | (selector, none) =>
      if selector = 0 then return none
      else .error (.modelMismatch (shapeName (.option body)) "None or a single variant"
        "union without body")
    | (selector, some b) =>
      if selector = 1 then return some (← body.lift b)
      else .error (.modelMismatch (shapeName (.option body)) "None or a single variant"
        "union with unexpected variant")
  | .vector element length, v => do
    let name := shapeName (.vector element length)
    let items ← (← elements name v).mapM fun item => element.lift item
    (Exactly.ofList? length.toNat items).mapError fun _ =>
      .modelMismatch name "vector of the declared length" "sequence of another length"
  | .boundedList element limit, v => do
    let name := shapeName (.boundedList element limit)
    let items ← (← elements name v).mapM fun item => element.lift item
    (UpTo.ofList? limit.toNat items).mapError (.maxSize name)
  | .sizedVector element length, v => do
    (← elements (shapeName (.sizedVector element length)) v).mapM fun item => element.lift item
  | .sizedList element limit, v => do
    (← elements (shapeName (.sizedList element limit)) v).mapM fun item => element.lift item
  | .newtype _ inner _, v => inner.lift v
  | .record name fields, v => do liftFields name fields (← fieldsOf name fields.length v)
  | .choice name true variants, v => do
    match ← selected name v with
    | (selector, none) => if selector = 0 then return none else .error (noVariant name)
    | (selector, some b) =>
      if selector = 0 then .error (noVariant name)
      else return some (← liftVariant name variants (selector.toNat - 1) b)
  | .choice name false variants, v => do
    match ← selected name v with
    | (_, none) => .error (noVariant name)
    | (selector, some b) => liftVariant name variants selector.toNat b

/-- Lifts each field of a record of some name. -/
def liftFields (name : String) :
    (fields : ModelFields) → List Value → Except DecodeError (RecordInstance fields)
  | .nil, _ => .ok ()
  | .cons _ model _ rest, v :: vs => do
    let x ← model.lift v
    return (x, ← liftFields name rest vs)
  | .cons _ _ _ _, [] =>
    .error (.modelMismatch name "container" "container with a different field count")

/-- Lifts the body of a variant of a choice of some name. -/
def liftVariant (name : String) :
    (variants : ModelVariants) → Nat → Value → Except DecodeError (ChoiceInstance variants)
  | .nil, _, _ => .error (noVariant name)
  | .cons model _, 0, v => do return .inl (← model.lift v)
  | .cons _ rest, i + 1, v => do return .inr (← liftVariant name rest i v)

end

/-- The value of a machine word.  Words of more than 64 bits are integers of any size. -/
def lowerWord : (size : WordSize) → Fin (LittleEndian.capacity size.bytes) → Value
  | .sixteen, n => .bigUint n.val
  | _, n => .uint (UInt64.ofNat n.val)

mutual

/-- The value of an instance. -/
def lower : (m : Model) → m.Instance → Value
  | .bool, b => .bool b
  | .uint size, n => lowerWord size n
  | .uint256, n => .bigUint n
  | .bytes _, x => .bytes x.bytes
  | .list element, xs => .list (xs.map fun x => element.lower x)
  | .option _, none => .union 0 none
  | .option body, some x => .union 1 (some (body.lower x))
  | .vector element _, xs => .list (xs.items.map fun x => element.lower x)
  | .boundedList element _, xs => .list (xs.items.map fun x => element.lower x)
  | .sizedVector element _, xs => .list (xs.map fun x => element.lower x)
  | .sizedList element _, xs => .list (xs.map fun x => element.lower x)
  | .newtype _ inner _, x => inner.lower x
  | .record _ fields, xs => .container (lowerFields fields xs)
  | .choice _ true _, none => .union 0 none
  | .choice _ true variants, some x => lowerVariant variants 1 x
  | .choice _ false variants, x => lowerVariant variants 0 x

def lowerFields : (fields : ModelFields) → RecordInstance fields → List Value
  | .nil, _ => []
  | .cons _ model _ rest, (x, xs) => model.lower x :: lowerFields rest xs

/-- The value of an instance of variants that count from `selector`. -/
def lowerVariant : (variants : ModelVariants) → (selector : Nat) → ChoiceInstance variants → Value
  | .cons model _, selector, .inl x => .union (UInt32.ofNat selector) (some (model.lower x))
  | .cons _ rest, selector, .inr x => lowerVariant rest (selector + 1) x

end

end Model

end SimpleSerialize
