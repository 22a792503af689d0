/-
What can go wrong, as causes.

There is one type for each stage: setting up shapes, writing a value (or hashing it), and reading
bytes or lifting a value into a typed model.  `CodecError` joins the three.  `message` words an
error; `sources` lists the messages of the errors underneath, outermost first.
-/
import SimpleSerialize.Bound
import SimpleSerialize.Bytes.Hex

namespace SimpleSerialize

/-- A shape cannot be declared or resolved. -/
inductive SchemaError
  /-- No accessor handles a use of the shape. -/
  | unsupported (shape : String) (field hint : Option String)
  /-- The length of the shape is a size variable that has no value. -/
  | unboundVariable (shape name : String)
  | unknownShape (name : String)
  /-- One name was declared for two structures. -/
  | conflictingDeclaration (name : String)
  | emptyVector (shape : String)
  /-- The fixed size of the shape does not fit in 32 bits. -/
  | sizeOverflow (shape : String)
  deriving DecidableEq

/-- A value cannot be written or hashed as a value of its shape. -/
inductive EncodeError
  | vectorLength (shape : String) (error : LengthError)
  | maxSize (shape : String) (error : LengthError)
  | byteWidth (shape : String) (error : WidthError)
  | integerOverflow (shape : String) (width : Nat)
  | valueMismatch (shape expected found : String)
  | unionSelector (shape : String) (selector : UInt32)
  | pruned (shape : String)
  | rangeOutOfBounds (shape : String) (start len count : Nat)
  deriving DecidableEq

/-- Why an offset cannot stand where it was read. -/
inductive OffsetFault
  /-- The first offset points at the end of the fixed part. -/
  | first (expected : Nat)
  /-- Offsets do not decrease. -/
  | decreasing (previous : Nat)
  /-- Offsets stay within the buffer. -/
  | outOfRange (limit : Nat)
  /-- The first offset of a sequence counts whole offsets. -/
  | misaligned
  deriving DecidableEq

/-- Bytes cannot be read as a value of a shape, or a value cannot be lifted into a model. -/
inductive DecodeError
  | truncated (shape : String) (needed available : Nat)
  | trailing (shape : String) (residual : Nat)
  | malformedOffset (shape : String) (index offset : Nat) (fault : OffsetFault)
  | unionSelector (shape : String) (selector : UInt32)
  | invalidBasic (shape : String) (bytes : Bytes)
  | maxSize (shape : String) (error : LengthError)
  /-- The shape refused a value that its target accepts. -/
  | rejected (shape reason : String)
  | modelMismatch (model expected found : String)
  deriving DecidableEq

/-- Any failure of the codec. -/
inductive CodecError
  | schema (error : SchemaError)
  | encode (error : EncodeError)
  | decode (error : DecodeError)
  deriving DecidableEq

namespace SchemaError

def message : SchemaError → String
  | unsupported shape field hint =>
    let inField := match field with
      | some name => s!" (field `{name}`)"
      | none => ""
    let hinted := match hint with
      | some name => s!" with accessor hint `{name}`"
      | none => ""
    s!"no accessor supports shape `{shape}`" ++ inField ++ hinted
  | unboundVariable shape name =>
    s!"external size variable `{name}` required by shape `{shape}` is not defined"
  | unknownShape name => s!"shape `{name}` is not registered in the schema"
  | conflictingDeclaration name => s!"shape `{name}` was registered with two different declarations"
  | emptyVector shape => s!"vector shape `{shape}` has length zero"
  | sizeOverflow shape => s!"fixed size of shape `{shape}` overflows 32 bits"

def sources : SchemaError → List String
  | _ => []

end SchemaError

namespace EncodeError

def message : EncodeError → String
  | vectorLength shape error => s!"vector `{shape}`: " ++ error.message
  | maxSize shape error => s!"list `{shape}`: " ++ error.message
  | byteWidth shape error => s!"`{shape}`: " ++ error.message
  | integerOverflow shape width => s!"integer value does not fit in {width} bytes of `{shape}`"
  | valueMismatch shape expected found =>
    s!"shape `{shape}` expects a {expected} value, found {found}"
  | unionSelector shape selector => s!"union `{shape}` has no variant with index {selector}"
  | pruned shape => s!"value of `{shape}` was pruned to its root and cannot be serialized"
  | rangeOutOfBounds shape start len count =>
    s!"range {start}..{start + len} lies outside the {count} elements of `{shape}`"

def sources : EncodeError → List String
  | vectorLength _ error => [error.message]
  | maxSize _ error => [error.message]
  | byteWidth _ error => [error.message]
  | _ => []

end EncodeError

def OffsetFault.message : OffsetFault → String
  | first expected => s!"first offset must equal fixed-part length {expected}"
  | decreasing previous => s!"offset is smaller than preceding offset {previous}"
  | outOfRange limit => s!"offset exceeds buffer length {limit}"
  | misaligned => "offset is not a multiple of 4"

namespace DecodeError

def message [HexText] : DecodeError → String
  | truncated shape needed available =>
    s!"`{shape}` requires {needed} bytes but only {available} remain"
  | trailing shape residual => s!"`{shape}` left {residual} unconsumed bytes"
  | malformedOffset shape index offset fault =>
    s!"malformed offset {offset} for child {index} of `{shape}`: " ++ fault.message
  | unionSelector shape selector => s!"union `{shape}` has no variant with index {selector}"
  | invalidBasic shape bytes =>
    "bytes " ++ HexText.encode bytes ++ s!" are not a valid `{shape}`"
  | maxSize shape error => s!"list `{shape}`: " ++ error.message
  | rejected shape reason => s!"`{shape}` rejected decoded value: {reason}"
  | modelMismatch model expected found =>
    s!"model `{model}` expects a {expected} value, found {found}"

def sources : DecodeError → List String
  | maxSize _ error => [error.message]
  | _ => []

end DecodeError

namespace CodecError

def message [HexText] : CodecError → String
  | schema error => error.message
  | encode error => error.message
  | decode error => error.message

def sources [HexText] : CodecError → List String
  | schema error => error.message :: error.sources
  | encode error => error.message :: error.sources
  | decode error => error.message :: error.sources

end CodecError

end SimpleSerialize
