import OnnxFusion.Text.Literal
import OnnxFusion.Numeric.Fixed
/-!
# Faults

Every way an operation of the tool can fail, as a cause. `Fault.kind` is the class of error
the tool reports and `Fault.message` its text; both are output and compared exactly.
-/

set_option autoImplicit false

namespace OnnxFusion

/-- What is wrong with the records of a zip archive. -/
inductive ArchiveProblem where
  /-- No end-of-directory record is found, or a 64-bit locator points before the file. -/
  | notAnArchive
  /-- The 64-bit locator names more than one disk. -/
  | spansDisks
  /-- The directory would start before the file. -/
  | directoryBeforeStart
  /-- The directory ends inside the fixed part of an entry. -/
  | truncatedDirectory
  /-- A directory entry lacks its signature. -/
  | badDirectorySignature
  /-- A block of an entry's extra field runs past the field: its tag and declared size. -/
  | corruptExtra (tag size : Nat)
  /-- The 64-bit block of an entry's extra field lacks a value that the entry defers to it. -/
  | missingWideValue (field : String)
  /-- A member's local header runs past the file. -/
  | truncatedHeader
  /-- A member's local header lacks its signature. -/
  | badHeaderSignature
  deriving Inhabited, DecidableEq

/-- The text that reports an archive problem. -/
def ArchiveProblem.message : ArchiveProblem → String
  | .notAnArchive => "File is not a zip file"
  | .spansDisks => "zipfiles that span multiple disks are not supported"
  | .directoryBeforeStart => "Bad offset for central directory"
  | .truncatedDirectory => "Truncated central directory"
  | .badDirectorySignature => "Bad magic number for central directory"
  | .corruptExtra t n =>
    "Corrupt extra field " ++ Text.hex2 (t / 256) ++ Text.hex2 (t % 256) ++ " (size=" ++
      toString n ++ ")"
  | .missingWideValue f => "Corrupt zip64 extra field. " ++ f ++ " not found."
  | .truncatedHeader => "Truncated file header"
  | .badHeaderSignature => "Bad magic number for file header"

/-- Why an operation failed. -/
inductive Fault where
  /-- A list was indexed past its end. -/
  | indexOutOfRange
  /-- A shape was indexed past its rank. -/
  | shapeIndexOutOfRange
  /-- A name is missing from a table; the key is shown as a literal. -/
  | missingKey (key : String)
  /-- A value of type `owner` was asked for a field it does not have. -/
  | noAttribute (owner field : String)
  /-- Shapes were asked for although the model records none. -/
  | noShapeInfo
  /-- A check without a message failed. -/
  | checkFailed
  /-- A node that was removed from the dataflow graph was queried. -/
  | nodeNotInGraph (node : Nat)
  /-- An attribute constraint names a comparator it does not know. -/
  | unsupportedComparator (comparator : String)
  /-- Two values of types that have no order were compared. -/
  | notOrdered (op lhs rhs : String)
  /-- A value that cannot be hashed was put into a set. -/
  | unhashable (typeName : String)
  /-- A value other than an integer was used as a dimension or count. -/
  | notAnInteger (typeName : String)
  /-- The length of a value that has none was asked for. -/
  | noLength (typeName : String)
  /-- A dimension was negative. -/
  | negativeDimension
  /-- A tensor of more or less than one element was read as one number. -/
  | notOneElement
  /-- The attention pattern found no shape for the score product. -/
  | unknownScoreShape
  /-- A bare integer does not fit the integer element type it meets. -/
  | integerOutOfBounds (n : Int) (dtype : String)
  /-- A text is not an integer literal. -/
  | invalidIntLiteral (text : String)
  /-- A value of this type cannot become an integer element. -/
  | notConvertible (typeName : String)
  /-- Fewer values than names in an unpacking. -/
  | tooFewToUnpack (expected got : Nat)
  /-- More values than names in an unpacking. -/
  | tooManyToUnpack (expected : Nat)
  /-- Two shapes that do not broadcast. -/
  | notBroadcastable (lhs rhs : List Nat)
  /-- A reshape to a shape of another size; a negative dimension stands for the one inferred. -/
  | badReshape (size : Nat) (dims : List Int)
  /-- A reshape with more than one inferred dimension. -/
  | twoUnknownDimensions
  /-- An arithmetic operator applied to values of types it does not take. -/
  | unsupportedOperand (op lhs rhs : String)
  /-- A membership test searched a value that holds no items. -/
  | notIterable (typeName : String)
  /-- A plain number was divided by zero; `floats` tells whether a float took part. -/
  | zeroDivision (floats : Bool)
  /-- A text that does not spell a float was read as one. -/
  | notAFloat (text : String)
  /-- A value of a type that is neither a text nor a real number was read as a float. -/
  | notARealNumber (typeName : String)
  /-- An integer beyond the largest double was read as a float. -/
  | intTooLargeForFloat
  /-- An integer beyond 64 bits was read as a machine integer. -/
  | intTooLargeForLong
  /-- A new array would span more bytes than any array can. -/
  | arrayTooBig
  /-- A new array of so many bytes, of a shape and element type, could not be allocated. -/
  | outOfMemory (bytes : Nat) (dims : List Nat) (dtype : String)
  /-- Nested lists of unequal lengths were read as an array. -/
  | ragged (depth : Nat) (dims : List Nat)
  /-- The batch-norm scale length differs from the output channels. -/
  | scaleChannels (found expected : String)
  /-- The transposed-convolution bias length differs from the output channels. -/
  | biasChannels (found expected : String)
  /-- A file is missing from the working directory; the path is shown as a literal. -/
  | fileNotFound (path : String)
  /-- A model is missing from the file table; the path is shown as written, in quotes. -/
  | modelNotFound (path : String)
  /-- Something other than a pattern was registered; the type is given. -/
  | notAPattern (typeName : String)
  /-- A configuration was built with an unknown field. -/
  | unexpectedField (field : String)
  /-- The error measure got two tensors of different shapes. -/
  | shapesDiffer
  /-- The similarity measure got two vectors of different lengths. -/
  | lengthsDiffer
  /-- Booleans were subtracted. -/
  | booleanSubtract
  /-- A random seed outside `[0, 2^32)`. -/
  | seedOutOfRange
  /-- A data file holds pickled objects. -/
  | pickledData
  /-- Output insertion got both an op-type filter and a node-name list. -/
  | bothSelectors
  /-- Two output tables with different names. -/
  | outputsDiffer
  /-- Bytes that are not UTF-8: the first byte, the offending range and the reason. -/
  | undecodable (byte : Nat) (start stop : Nat) (reason : String)
  /-- A path that names a directory where a file was wanted. -/
  | isADirectory (path : String)
  /-- A path that goes through a file where a directory was wanted. -/
  | notADirectory (path : String)
  /-- A directory to be made where a file already is. -/
  | fileExists (path : String)
  /-- A directory named by its own `.` entry was removed. -/
  | invalidArgument (path : String)
  /-- A directory named by a `..` entry was removed. -/
  | directoryNotEmpty (path : String)
  /-- An empty data file. -/
  | noDataLeft
  /-- A zip archive whose records are not in order. -/
  | badArchive (problem : ArchiveProblem)
  /-- A zip archive entry that needs a format version above 6.3, given in tenths. -/
  | archiveVersion (tenths : Nat)
  /-- A read from a position before the start of a file. -/
  | seekBeforeStart
  /-- A member of a zip archive whose contents this library does not read. -/
  | archiveMemberUnread (name : String)
  /-- A table written into a directory that does not exist. -/
  | missingParentDirectory (dir : String)
  /-- A membership test against a value that is not a collection. -/
  | notListLike (typeName : String)
  /-- An empty list given as a random seed. -/
  | emptySeed
  /-- A random seed of a type that does not convert to integers; `scalar` when it is not a
  list. -/
  | unsafeSeed (dtype : String) (scalar : Bool)
  /-- A random seed given as nested lists. -/
  | seedNotFlat
  /-- A call spread a value that cannot be iterated over as its arguments. -/
  | starArgsNotIterable (callee typeName : String)
  /-- A boolean given as an array dimension. -/
  | integerRequired
  /-- An array dimension beyond a signed 64-bit size. -/
  | dimensionTooLarge
  /-- A value, by its literal form, given where a shape is wanted. -/
  | notAShape (literal : String)
  /-- An array operator met an operand type it has no loop for. -/
  | noUfuncLoop (ufunc left right : String)
  /-- A value iterated over that cannot be. -/
  | cannotIterate (typeName : String)
  /-- An element type name that names no type. -/
  | unknownDtype (name : String)
  /-- A list expected where nothing is. -/
  | notJoinable
  /-- A value called as a function. -/
  | notCallable (typeName : String)
  /-- A value given as the class of an object. -/
  | notAClass (typeName : String)
  /-- A value given as the attribute table of an object. -/
  | notAnAttributeTable (typeName : String)
  /-- An attribute that cannot be written. -/
  | readOnlyAttribute (attr owner : String)
  /-- A request the tool cannot take at all (wrong shape of input). -/
  | badInput (why : String)
  deriving Inhabited, DecidableEq

namespace Fault

/-- A shape written as a tuple: `(2,2,1,1)`, `(4,)`, `()`. -/
def tupleText (dims : List String) : String :=
  match dims with
  | [d] => "(" ++ d ++ ",)"
  | _ => "(" ++ ",".intercalate dims ++ ")"

/-- A tuple as a literal: items after commas and blanks, one item with a trailing comma. -/
def tupleLiteral (items : List String) : String :=
  match items with
  | [d] => "(" ++ d ++ ",)"
  | _ => "(" ++ ", ".intercalate items ++ ")"

/-- The decimal text of an integer. -/
def intText (n : Int) : String := toString n

/-- A requested shape as reshaping reports it: leading unknown (negative) dimensions left
out, later ones written `newaxis`, commas without blanks, and a trailing comma only for a
shape of one known dimension. -/
def requestedShapeText (dims : List Int) : String :=
  let shown := dims.dropWhile (· < 0)
  let parts := shown.map fun d => if d < 0 then "newaxis" else intText d
  if shown.isEmpty then "()"
  else if dims.length == 1 then "(" ++ ",".intercalate parts ++ ",)"
  else "(" ++ ",".intercalate parts ++ ")"

/-- The class of error reported. -/
def kind : Fault → String
  | indexOutOfRange | shapeIndexOutOfRange => "IndexError"
  | missingKey _ => "KeyError"
  | noAttribute .. => "AttributeError"
  | noShapeInfo | checkFailed => "AssertionError"
  | nodeNotInGraph _ => "NetworkXError"
  | unsupportedComparator _ => "ValueError"
  | notOrdered .. | unhashable _ | notAnInteger _ | noLength _ | notConvertible _ => "TypeError"
  | negativeDimension | notOneElement | unknownScoreShape | invalidIntLiteral _ => "ValueError"
  | integerOutOfBounds .. | intTooLargeForFloat | intTooLargeForLong => "OverflowError"
  | arrayTooBig => "ValueError"
  | outOfMemory .. => "MemoryError"
  | tooFewToUnpack .. | tooManyToUnpack _ | notBroadcastable .. | badReshape .. => "ValueError"
  | twoUnknownDimensions | notAFloat _ | ragged .. => "ValueError"
  | zeroDivision _ => "ZeroDivisionError"
  | notIterable _ => "TypeError"
  | unsupportedOperand .. | notARealNumber _ => "TypeError"
  | scaleChannels .. | biasChannels .. => "ValueError"
  | fileNotFound _ | modelNotFound _ => "FileNotFoundError"
  | notAPattern _ | unexpectedField _ => "TypeError"
  | shapesDiffer | lengthsDiffer => "ValueError"
  | booleanSubtract => "TypeError"
  | seedOutOfRange | pickledData | outputsDiffer => "ValueError"
  | bothSelectors => "NotImplementedError"
  | undecodable .. => "UnicodeDecodeError"
  | isADirectory _ => "IsADirectoryError"
  | notADirectory _ => "NotADirectoryError"
  | fileExists _ => "FileExistsError"
  | invalidArgument _ | directoryNotEmpty _ => "OSError"
  | noDataLeft => "EOFError"
  | badArchive _ => "BadZipFile"
  | archiveVersion _ | archiveMemberUnread _ => "NotImplementedError"
  | seekBeforeStart => "OSError"
  | missingParentDirectory _ => "OSError"
  | notListLike _ | unsafeSeed .. => "TypeError"
  | emptySeed | seedNotFlat | dimensionTooLarge => "ValueError"
  | starArgsNotIterable .. | integerRequired | notAShape _ => "TypeError"
  | noUfuncLoop .. => "UFuncTypeError"
  | cannotIterate _ | unknownDtype _ => "TypeError"
  | notJoinable => "TypeError"
  | notCallable _ | notAClass _ | notAnAttributeTable _ => "TypeError"
  | readOnlyAttribute _ _ => "AttributeError"
  | badInput _ => "BadInput"

/-- The text of the error. -/
def message : Fault → String
  | indexOutOfRange => "list index out of range"
  | shapeIndexOutOfRange => "tuple index out of range"
  | missingKey k => Text.literal k
  | noAttribute owner field => "'" ++ owner ++ "' object has no attribute '" ++ field ++ "'"
  | noShapeInfo => "tensor shape is \x7b\x7d"
  | checkFailed => ""
  | nodeNotInGraph i => "The node <node " ++ toString i ++ "> is not in the digraph."
  | unsupportedComparator c => "Unsupported comparator: " ++ c
  | notOrdered op a b =>
    "'" ++ op ++ "' not supported between instances of '" ++ a ++ "' and '" ++ b ++ "'"
  | unhashable t => "unhashable type: '" ++ t ++ "'"
  | notAnInteger t => "'" ++ t ++ "' object cannot be interpreted as an integer"
  | noLength t => "object of type '" ++ t ++ "' has no len()"
  | negativeDimension => "negative dimensions are not allowed"
  | notOneElement => "can only convert an array of size 1 to a Python scalar"
  | unknownScoreShape => "Cannot infer pre_matmul output shape"
  | integerOutOfBounds n t => "Python integer " ++ intText n ++ " out of bounds for " ++ t
  | invalidIntLiteral s => "invalid literal for int() with base 10: " ++ Text.literal s
  | notConvertible t =>
    "int() argument must be a string, a bytes-like object or a real number, not '" ++ t ++ "'"
  | tooFewToUnpack e g =>
    "not enough values to unpack (expected " ++ toString e ++ ", got " ++ toString g ++ ")"
  | tooManyToUnpack e => "too many values to unpack (expected " ++ toString e ++ ")"
  | notBroadcastable a b =>
    "operands could not be broadcast together with shapes " ++ tupleText (a.map toString) ++
      " " ++ tupleText (b.map toString) ++ " "
  | badReshape n dims =>
    "cannot reshape array of size " ++ toString n ++ " into shape " ++ requestedShapeText dims
  | twoUnknownDimensions => "can only specify one unknown dimension"
  | unsupportedOperand op a b =>
    "unsupported operand type(s) for " ++ op ++ ": '" ++ a ++ "' and '" ++ b ++ "'"
  | notIterable t => "argument of type '" ++ t ++ "' is not iterable"
  | zeroDivision floats => if floats then "float division by zero" else "division by zero"
  | notAFloat s => "could not convert string to float: " ++ Text.literal s
  | notARealNumber t => "float() argument must be a string or a real number, not '" ++ t ++ "'"
  | intTooLargeForFloat => "int too large to convert to float"
  | intTooLargeForLong => "Python int too large to convert to C long"
  | arrayTooBig =>
    "array is too big; `arr.size * arr.dtype.itemsize` is larger than the maximum possible size."
  | outOfMemory bytes dims dtype =>
    "Unable to allocate " ++ Decimal.byteSize bytes ++ " for an array with shape " ++
      tupleLiteral (dims.map toString) ++ " and data type " ++ dtype
  | ragged depth dims =>
    "setting an array element with a sequence. The requested array has an inhomogeneous shape " ++
      "after " ++ toString depth ++ " dimensions. The detected shape was " ++
      tupleLiteral (dims.map toString) ++ " + inhomogeneous part."
  | scaleChannels f e => "BN scale维度(" ++ f ++ ")与ConvTranspose输出通道(" ++ e ++ ")不匹配！"
  | biasChannels f e => "ConvTranspose bias维度(" ++ f ++ ")与输出通道(" ++ e ++ ")不匹配！"
  | fileNotFound p => "[Errno 2] No such file or directory: " ++ Text.literal p
  | modelNotFound p => "[Errno 2] No such file or directory: '" ++ p ++ "'"
  | notAPattern t => "The registerd pattern must be Pattern, input pattern type:<class '" ++ t ++ "'>"
  | unexpectedField k => "Config.__init__() got an unexpected keyword argument '" ++ k ++ "'"
  | shapesDiffer => "orignal tensor shape not equal to that of dquant."
  | lengthsDiffer => "两个向量的形状必须相同"
  | booleanSubtract =>
    "numpy boolean subtract, the `-` operator, is not supported, use the bitwise_xor, " ++
      "the `^` operator, or the logical_xor function instead."
  | seedOutOfRange => "Seed must be between 0 and 2**32 - 1"
  | pickledData => "Cannot load file containing pickled data when allow_pickle=False"
  | bothSelectors =>
    "Currently can't support insert output of specified  operator concurrently according " ++
      "to op_type and insert_node_names."
  | outputsDiffer => "Length Not Equal."
  | undecodable b start stop why =>
    if stop == start + 1 then
      "'utf-8' codec can't decode byte 0x" ++ Text.hex2 b ++ " in position " ++ toString start ++
        ": " ++ why
    else
      "'utf-8' codec can't decode bytes in position " ++ toString start ++ "-" ++
        toString (stop - 1) ++ ": " ++ why
  | isADirectory p => "[Errno 21] Is a directory: " ++ Text.literal p
  | notADirectory p => "[Errno 20] Not a directory: " ++ Text.literal p
  | fileExists p => "[Errno 17] File exists: " ++ Text.literal p
  | invalidArgument p => "[Errno 22] Invalid argument: " ++ Text.literal p
  | directoryNotEmpty p => "[Errno 39] Directory not empty: " ++ Text.literal p
  | noDataLeft => "No data left in file"
  | badArchive p => p.message
  | archiveVersion v => "zip file version " ++ toString (v / 10) ++ "." ++ toString (v % 10)
  | seekBeforeStart => "[Errno 22] Invalid argument"
  | archiveMemberUnread n => "archive member " ++ Text.literal n ++ " is not read"
  | missingParentDirectory d => "Cannot save file into a non-existent directory: '" ++ d ++ "'"
  | notListLike t =>
    "only list-like objects are allowed to be passed to isin(), you passed a `" ++ t ++ "`"
  | emptySeed => "Seed must be non-empty"
  | unsafeSeed t scalar =>
    "Cannot cast " ++ (if scalar then "scalar" else "array data") ++ " from dtype('" ++ t ++
      "') to dtype('int64') according to the rule 'safe'"
  | seedNotFlat => "Seed array must be 1-d"
  | starArgsNotIterable f t => f ++ " argument after * must be an iterable, not " ++ t
  | integerRequired => "an integer is required"
  | notAShape v => "expected a sequence of integers or a single integer, got '" ++ v ++ "'"
  | noUfuncLoop u l r =>
    "ufunc '" ++ u ++ "' did not contain a loop with signature matching types (dtype('" ++ l ++
      "'), dtype('" ++ r ++ "')) -> None"
  | dimensionTooLarge => "Maximum allowed dimension exceeded"
  | cannotIterate t => "'" ++ t ++ "' object is not iterable"
  | unknownDtype n => "data type " ++ Text.literal n ++ " not understood"
  | notJoinable => "can only join an iterable"
  | notCallable t => "'" ++ t ++ "' object is not callable"
  | notAClass t => "__class__ must be set to a class, not '" ++ t ++ "' object"
  | notAnAttributeTable t => "__dict__ must be set to a dictionary, not a '" ++ t ++ "'"
  | readOnlyAttribute a o => "attribute '" ++ a ++ "' of '" ++ o ++ "' objects is not writable"
  | badInput why => why

end Fault

/-- Results that may fail with a fault. -/
abbrev Outcome (α : Type) := Except Fault α

end OnnxFusion
