/-! What can go wrong, by cause. Each cause belongs to a class and has one wording; `Fault.args` are the
texts that an equal fault is built from when a program is made to raise it. -/
namespace SourceOptimizer

inductive TypeCause where
  | operands (sign left right : String)
  | operands3 (sign first second third : String)
  | unordered (sign left right : String)
  | concatenate (own other : String)
  | concatenateBytes (other : String)
  | repeatBy (other : String)
  | notContainer (type : String)
  | memberOfText (type : String)
  | bytesLike (type : String)
  | notIterable (type : String)
  | notCallable (type : String)
  | notIndex (type : String)
  | unhashable (type : String)
  | noLength (type : String)
  | noAbsolute (type : String)
  | noRound (type : String)
  | noKeywords (function : String)
  | exactlyOne (function : String) (given : Nat)
  | expectedAtMostOne (function : String) (given : Nat)
  | expectedAtLeastOne (function : String)
  | expected (function : String) (count : Nat) (given : Nat)
  | atMost (function : String) (limit : Nat) (given : Nat)
  | atMostKeywords (function : String) (limit : Nat) (given : Nat)
  | atLeastOnePositional (function : String)
  | missingArgument (function argument : String) (position : Nat)
  | unknownKeyword (function keyword : String)
  | twiceGiven (function argument : String) (position : Nat)
  | multipleValues (function argument : String)
  | keywordsNotText
  | textsNotSummed
  | bytesNotSummed
  | defaultWithMany (function : String)
  | integerArgument (type : String)
  | baseWithoutText
  | textMissing
  | floatArgument (type : String)
  | encodingNotText (argument type : String)
  | decodingText
  | decodingNeedsBytes (type : String)
  | modulusNeedsIntegers
  | pairNotSequence (position : Nat)
  | notAllConverted (what : String)
  | notEnoughArguments
  | mappingRequired
  | starWantsInt
  | integerFormat (letter : String) (type : String)
  | realFormat (letter : String) (type : String)
  | realRequired (type : String)
  | floatRequired (type : String)
  | charRequired
  | byteCharRequired
  | bytesFormat (letter : String) (type : String)
  | byteIndices (type : String)
  | sequenceIndices (own other : String)
  | valueNotCallable (type : String)
  | objectNotCallable
  | missingPositional (function : String)
  | missingKeyword (function : String)
  | missingAny (function : String)
  | tooMany (function : String)
  | unboundOrder
  | finalBase (type : String)
  | layoutConflict
  | singleChoice
  | choicesWithBound
  | duplicateBase (name : String)
  | inconsistentOrder (bases : List String)
  | noClasses
  | parameterCount (quantity : String) (count given : Nat)
  | parameterNotText (position : Nat) (type : String)
  | endOffsetMissing
  | groupCount (given : Nat)
  | groupMessageNotText (type : String)
  | groupNotSequence

inductive ValueCause where
  | negativeShift
  | byteRange
  | notANumberToInt
  | floatText (quoted : String)
  | intText (base : Int) (quoted : String)
  | baseRange
  | emptyChoice (function : String)
  | zeroModulus
  | notInvertible
  | complexModulus
  | pairLength (position length : Nat)
  | incompleteFormat
  | fieldTooBig (part : String)
  | incompleteKey
  | formatCharacter (letter : String) (code : String) (position : Nat)
  | tooManyDigits
  | tooManyDigitsRead (digits : Nat)
  | notInList
  | unpackTooFew (wanted given : Nat)
  | unpackTooMany (wanted : Nat)
  | backslashInFormatted
  | indexSize
  | notALevel (quoted : String)
  | emptyGroup
  | groupMember (position : Nat)
  | nullCharacter
  | nullByte
  | noNativeName
  | unexpectedPart

inductive ZeroCause where
  | division | floatDivision | floatFloorDivision | floatModulo | floatDivmod
  | integerDivision | integerModulo | complexDivision | negativePower | complexPower

inductive OverflowCause where
  | intToFloat | ratioToFloat | infinityToInt | outOfRange | complexPower | roundedTooLarge
  | indexSize | machineSize (word : String) | tooManyDigits | absoluteTooLarge | repeatedText | repeatedBytes | characterRange

inductive AttributeCause where
  | ofObject (type field : String)
  | ofClass (type field : String)
  | plain (field : String)

inductive FileCause where
  | notFound (path : String)
  | isDirectory (path : String)
  | notDirectory (path : String)
  | exists (path : String)
  | undecodable (path : String)

inductive SyntaxCause where
  | general
  /-- a piece of text that is no token -/
  | token
  | indentation | tabs
  deriving DecidableEq

inductive Fault where
  | type (cause : TypeCause)
  | value (cause : ValueCause)
  | zero (cause : ZeroCause)
  | overflow (cause : OverflowCause)
  | attribute (cause : AttributeCause)
  | index
  | key (quoted : String)
  | assertion
  | unknown
  | exhausted
  | recursion
  | memory
  | runtime (message : String)
  | file (cause : FileCause)
  | undecodable (codec : String) (message : String)
  | encodingUnknown (name : String)
  | recoveryUnknown (name : String)
  | source (cause : SyntaxCause)
  | raised (className : String) (args : List String) (message : String)

def TypeCause.message : TypeCause → String
  | .operands sign l r => s!"unsupported operand type(s) for {sign}: '{l}' and '{r}'"
  | .operands3 sign a b c => s!"unsupported operand type(s) for {sign}: '{a}', '{b}', '{c}'"
  | .unordered sign l r => s!"'{sign}' not supported between instances of '{l}' and '{r}'"
  | .concatenate own other => s!"can only concatenate {own} (not \"{other}\") to {own}"
  | .concatenateBytes other => s!"can't concat {other} to bytes"
  | .repeatBy other => s!"can't multiply sequence by non-int of type '{other}'"
  | .notContainer t => s!"argument of type '{t}' is not iterable"
  | .memberOfText t => s!"'in <string>' requires string as left operand, not {t}"
  | .bytesLike t => s!"a bytes-like object is required, not '{t}'"
  | .notIterable t => s!"'{t}' object is not iterable"
  | .notCallable t => s!"'{t}' object is not callable"
  | .notIndex t => s!"'{t}' object cannot be interpreted as an integer"
  | .unhashable t => s!"unhashable type: '{t}'"
  | .noLength t => s!"object of type '{t}' has no len()"
  | .noAbsolute t => s!"bad operand type for abs(): '{t}'"
  | .noRound t => s!"type {t} doesn't define __round__ method"
  | .noKeywords f => s!"{f}() takes no keyword arguments"
  | .exactlyOne f n => s!"{f}() takes exactly one argument ({n} given)"
  | .expectedAtMostOne f n => s!"{f} expected at most 1 argument, got {n}"
  | .expectedAtLeastOne f => s!"{f} expected at least 1 argument, got 0"
  | .expected f k n => s!"{f} expected {k} argument" ++ (if k = 1 then "" else "s") ++ s!", got {n}"
  | .atMost f k n => s!"{f}() takes at most {k} arguments ({n} given)"
  | .atMostKeywords f k n => s!"{f}() takes at most {k} keyword arguments ({n} given)"
  | .atLeastOnePositional f => s!"{f}() takes at least 1 positional argument (0 given)"
  | .missingArgument f a i => s!"{f}() missing required argument '{a}' (pos {i})"
  | .unknownKeyword f k => s!"'{k}' is an invalid keyword argument for {f}()"
  | .twiceGiven f a i => s!"argument for {f}() given by name ('{a}') and position ({i})"
  | .multipleValues f a => s!"{f}() got multiple values for argument '{a}'"
  | .keywordsNotText => "keywords must be strings"
  | .textsNotSummed => "sum() can't sum strings [use ''.join(seq) instead]"
  | .bytesNotSummed => "sum() can't sum bytes [use b''.join(seq) instead]"
  | .defaultWithMany f => s!"Cannot specify a default for {f}() with multiple positional arguments"
  | .integerArgument t =>
    s!"int() argument must be a string, a bytes-like object or a real number, not '{t}'"
  | .baseWithoutText => "int() can't convert non-string with explicit base"
  | .textMissing => "int() missing string argument"
  | .floatArgument t => s!"float() argument must be a string or a real number, not '{t}'"
  | .encodingNotText a t => s!"str() argument '{a}' must be str, not {t}"
  | .decodingText => "decoding str is not supported"
  | .decodingNeedsBytes t => s!"decoding to str: need a bytes-like object, {t} found"
  | .modulusNeedsIntegers => "pow() 3rd argument not allowed unless all arguments are integers"
  | .pairNotSequence i => s!"cannot convert dictionary update sequence element #{i} to a sequence"
  | .notAllConverted what => s!"not all arguments converted during {what} formatting"
  | .notEnoughArguments => "not enough arguments for format string"
  | .mappingRequired => "format requires a mapping"
  | .starWantsInt => "* wants int"
  | .integerFormat c t => s!"%{c} format: an integer is required, not {t}"
  | .realFormat c t => s!"%{c} format: a real number is required, not {t}"
  | .realRequired t => s!"must be real number, not {t}"
  | .floatRequired t => s!"float argument required, not {t}"
  | .charRequired => "%c requires int or char"
  | .byteCharRequired => "%c requires an integer in range(256) or a single byte"
  | .bytesFormat c t =>
    s!"%{c} requires a bytes-like object, or an object that implements __bytes__, not '{t}'"
  | .byteIndices t => s!"byte indices must be integers or slices, not {t}"
  | .sequenceIndices own other => s!"{own} indices must be integers or slices, not {other}"
  | .valueNotCallable t => s!"'<class '{t}'>' object is not callable"
  | .objectNotCallable => "object is not callable"
  | .missingPositional f => s!"{f}() missing required positional arguments."
  | .missingKeyword f => s!"{f}() missing required keyword arguments."
  | .missingAny f => s!"{f}() missing required arguments."
  | .tooMany f => s!"{f}() got multiple values for arguments."
  | .unboundOrder => "unbound method type.mro() needs an argument"
  | .finalBase t => s!"type '{t}' is not an acceptable base type"
  | .layoutConflict => "multiple bases have instance lay-out conflict"
  | .singleChoice => "A single constraint is not allowed"
  | .choicesWithBound => "Constraints cannot be combined with bound=..."
  | .duplicateBase name => s!"duplicate base class {name}"
  | .inconsistentOrder bases =>
    "Cannot create a consistent method resolution\norder (MRO) for bases " ++ ", ".intercalate bases
  | .noClasses => "TypeUtils.predictType() missing 1 required positional argument: 'type1'"
  | .parameterCount quantity k n => s!"function takes {quantity} {k} arguments ({n} given)"
  | .parameterNotText i t => s!"argument {i} must be str, not {t}"
  | .endOffsetMissing => "end_offset must be provided when end_lineno is provided"
  | .groupCount n => s!"BaseExceptionGroup.__new__() takes exactly 2 arguments ({n} given)"
  | .groupMessageNotText t => s!"BaseExceptionGroup.__new__() argument 1 must be str, not {t}"
  | .groupNotSequence => "second argument (exceptions) must be a sequence"

def ValueCause.message : ValueCause → String
  | .negativeShift => "negative shift count"
  | .byteRange => "byte must be in range(0, 256)"
  | .notANumberToInt => "cannot convert float NaN to integer"
  | .floatText q => s!"could not convert string to float: {q}"
  | .intText b q => s!"invalid literal for int() with base {b}: {q}"
  | .baseRange => "int() base must be >= 2 and <= 36, or 0"
  | .emptyChoice f => s!"{f}() arg is an empty sequence"
  | .zeroModulus => "pow() 3rd argument cannot be 0"
  | .notInvertible => "base is not invertible for the given modulus"
  | .complexModulus => "complex modulo"
  | .pairLength i n => s!"dictionary update sequence element #{i} has length {n}; 2 is required"
  | .incompleteFormat => "incomplete format"
  | .fieldTooBig part => s!"{part} too big"
  | .incompleteKey => "incomplete format key"
  | .formatCharacter c code i => s!"unsupported format character '{c}' (0x{code}) at index {i}"
  | .tooManyDigits => "Exceeds the limit (4300 digits) for integer string conversion; " ++
    "use sys.set_int_max_str_digits() to increase the limit"
  | .tooManyDigitsRead n =>
    s!"Exceeds the limit (4300 digits) for integer string conversion: value has {n} digits; " ++
    "use sys.set_int_max_str_digits() to increase the limit"
  | .notInList => "list.remove(x): x not in list"
  | .unpackTooFew wanted given => s!"not enough values to unpack (expected {wanted}, got {given})"
  | .unpackTooMany wanted => s!"too many values to unpack (expected {wanted})"
  | .backslashInFormatted => "Unable to avoid backslash in f-string expression part"
  | .indexSize => "cannot fit 'int' into an index-sized integer"
  | .notALevel q => s!"{q} is not a valid LogLevel"
  | .emptyGroup => "second argument (exceptions) must be a non-empty sequence"
  | .groupMember i => s!"Item {i} of second argument (exceptions) is not an exception"
  | .nullCharacter => "embedded null character"
  | .nullByte => "embedded null byte"
  | .noNativeName => "Fail to generate native lib name."
  | .unexpectedPart => "Unexpected node inside JoinedStr"

def ZeroCause.message : ZeroCause → String
  | .division => "division by zero"
  | .floatDivision => "float division by zero"
  | .floatFloorDivision => "float floor division by zero"
  | .floatModulo => "float modulo"
  | .floatDivmod => "float divmod()"
  | .integerDivision => "integer division or modulo by zero"
  | .integerModulo => "integer modulo by zero"
  | .complexDivision => "complex division by zero"
  | .negativePower => "0.0 cannot be raised to a negative power"
  | .complexPower => "0.0 to a negative or complex power"

/-- The texts a range fault is built from; the fault of a power out of range has two. -/
def OverflowCause.args : OverflowCause → List String
  | .intToFloat => ["int too large to convert to float"]
  | .ratioToFloat => ["integer division result too large for a float"]
  | .infinityToInt => ["cannot convert float infinity to integer"]
  | .outOfRange => ["34", "Numerical result out of range"]
  | .complexPower => ["complex exponentiation"]
  | .roundedTooLarge => ["rounded value too large to represent"]
  | .indexSize => ["cannot fit 'int' into an index-sized integer"]
  | .machineSize word => [s!"Python int too large to convert to C {word}"]
  | .absoluteTooLarge => ["absolute value too large"]
  | .tooManyDigits => ["too many digits in integer"]
  | .repeatedText => ["repeated string is too long"]
  | .repeatedBytes => ["repeated bytes are too long"]
  | .characterRange => ["%c arg not in range(0x110000)"]

def OverflowCause.message : OverflowCause → String
  | .outOfRange => "(34, 'Numerical result out of range')"
  | c => (c.args.head?).getD ""

def AttributeCause.message : AttributeCause → String
  | .ofObject t f => s!"'{t}' object has no attribute '{f}'"
  | .ofClass t f => s!"type object '{t}' has no attribute '{f}'"
  | .plain f => s!"Object has no attribute '{f}'"

def FileCause.className : FileCause → String
  | .notFound _ => "FileNotFoundError"
  | .isDirectory _ => "IsADirectoryError"
  | .notDirectory _ => "NotADirectoryError"
  | .exists _ => "FileExistsError"
  | .undecodable _ => "OSError"

def FileCause.message : FileCause → String
  | .notFound p => s!"[Errno 2] No such file or directory: {p}"
  | .isDirectory p => s!"[Errno 21] Is a directory: {p}"
  | .notDirectory p => s!"[Errno 20] Not a directory: {p}"
  | .exists p => s!"[Errno 17] File exists: {p}"
  | .undecodable p => s!"File {p} can't be decoded with any supported encoding."

def SyntaxCause.className : SyntaxCause → String
  | .general | .token => "SyntaxError"
  | .indentation => "IndentationError"
  | .tabs => "TabError"

namespace Fault

def className : Fault → String
  | .type _ => "TypeError"
  | .value _ => "ValueError"
  | .zero _ => "ZeroDivisionError"
  | .overflow _ => "OverflowError"
  | .attribute _ => "AttributeError"
  | .index => "IndexError"
  | .key _ => "KeyError"
  | .assertion => "AssertionError"
  | .unknown => "EvalException"
  | .exhausted => "StopIteration"
  | .recursion => "RecursionError"
  | .memory => "MemoryError"
  | .runtime _ => "RuntimeError"
  | .file cause => cause.className
  | .undecodable _ _ => "UnicodeDecodeError"
  | .encodingUnknown _ | .recoveryUnknown _ => "LookupError"
  | .source cause => cause.className
  | .raised name _ _ => name

def message : Fault → String
  | .type cause => cause.message
  | .value cause => cause.message
  | .zero cause => cause.message
  | .overflow cause => cause.message
  | .attribute cause => cause.message
  | .index => "list index out of range"
  | .key quoted => quoted
  | .assertion | .unknown | .exhausted | .memory => ""
  | .recursion => "maximum recursion depth exceeded"
  | .runtime message => message
  | .file cause => cause.message
  | .undecodable codec message => s!"'{codec}' codec can't decode {message}"
  | .encodingUnknown name => s!"unknown encoding: {name}"
  | .recoveryUnknown name => s!"unknown error handler name '{name}'"
  | .source _ => "invalid syntax"
  | .raised _ _ message => message

def args : Fault → List String
  | .overflow cause => cause.args
  | .assertion | .unknown | .exhausted | .memory => []
  | .raised _ args _ => args
  | f => [f.message]

def headline (f : Fault) : String := f.className ++ ": " ++ f.message

end Fault
end SourceOptimizer
