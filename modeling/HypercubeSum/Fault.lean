/-!
# Faults

Every way in which an operation of this library can fail, as a cause with the numbers and names
that belong to it. `Fault.kind` sorts the causes, `Fault.wording` is the one place where a cause gets
its wording, and `Fault.round?` is the round at which a proof was turned down.
-/

namespace HypercubeSum

/-- The sorts of failure a caller can tell apart. -/
inductive FaultKind
  /-- An input of the wrong form or size. -/
  | invalidArgument
  /-- A step asked for at a moment when the state does not allow it. -/
  | invalidOperation
  /-- A bookkeeping table lost its length. -/
  | corruption
  | rejection
  /-- Bytes that cannot be written, or that are not the written form of anything. -/
  | serialization
  /-- A text or a range that is no number. -/
  | badValue
  | missingKey
  | missingEntry
  /-- A plain integer where an element's field is needed. -/
  | missingField
  /-- Stored data of a sort that cannot be read as what is asked for. -/
  | wrongShape
  /-- A size that exceeds every list. -/
  | overflow
  | depth
deriving DecidableEq, Repr

/-- The most digits of a number that is read or written. -/
def mostDigits : Nat := 4300

/-- A piece of a wording: an integer, or a text, such as that of a stored number. -/
inductive Label
  | integer (z : Int)
  | stored (shown : String)
deriving DecidableEq, Repr

namespace Label

instance : Coe Int Label := ⟨integer⟩

instance : Coe Nat Label := ⟨fun n => integer n⟩

instance : Coe String Label := ⟨stored⟩

def display : Label → String
  | integer z => toString z
  | stored shown => shown

end Label

/-- The causes of failure. -/
inductive Fault
  /-- The number is not accepted as the order of a field. -/
  | modulusRefused (modulus : Int)
  /-- A value that is no field element; `shown` is its text and `sort` the name of its sort. -/
  | elementExpected (shown : Label) (sort : String)
  | integerHasNoField
  | mixedFields (found expected : String)
  | lengthNotPowerOfTwo (length : Int)
  | lengthNotDeclared (length : Nat) (declared : Int)
  | indexOutOfRange (index : Label) (size : Nat)
  | duplicateIndex (index : Label)
  | negativeVariables (count : Label)
  | pointLength (given : Nat) (expected : Label)
  | tooManyCoordinates (given available : Nat)
  /-- A borrowed list that no longer has the length it was borrowed at. -/
  | borrowedListResized (length expected : Nat)
  | pointsDiffer (left right : Nat)
  /-- The coordinate factors of a point without coordinates. -/
  | noCoordinates
  | noNodes
  /-- More nodes than the field has elements. -/
  | nodesCollide (last modulus : Nat)
  | emptyTerm
  | unknownHandle (handle : Label)
  /-- A factor with another number of variables than the sum it joins. -/
  | variablesDiffer (given : Nat) (expected : Label)
  /-- A proof is asked for a polynomial without variables. -/
  | constantPolynomial
  /-- A proof is asked for a sum without terms. -/
  | noTerms
  | proverDone (rounds : Label)
  /-- The prover is given a challenge before its first message. -/
  | challengeTooEarly
  | challengeMissing
  /-- A bookkeeping table of the wrong length. -/
  | tableCorrupt (handle expected length : Nat)
  | tooFewVariables (count : Label)
  | tooFewFactors (count : Int)
  /-- The verifier is given a message after the last round. -/
  | verifierFull
  /-- The verifier is asked to settle before the last round. -/
  | verifierNotFull
  /-- The verifier holds the wrong number of messages. -/
  | recordedRounds (recorded : Nat) (expected : Label)
  | messageLength (round expected length : Nat)
  /-- A message that does not sum to what the rounds before it left to be shown. -/
  | roundRejected (round : Nat)
  | roundCount (given : Nat) (expected : Label)
  /-- A sum is read from a proof without messages. -/
  | emptyProof
  /-- An entry is read from a list that is too short. -/
  | entryMissing
  /-- An entry of a list that is too short is to be changed or removed. -/
  | placeMissing
  | listEmpty
  | layerFactorsDiffer (left right : Nat)
  | wiringVariables (dimension : Nat) (arity : Label)
  | layerConstant
  | layerPointLength (given dimension : Nat)
  /-- Wiring, factor and point of different dimensions. -/
  | layerDimensions (wiring factor point : Nat)
  /-- A half-fixed wiring whose variables do not go with the point. -/
  | halfFixedVariables (point arity : Nat)
  | layerRoundCount (first second : Nat) (dimension : Int)
  | layerMessageLength (length : Nat)
  /-- A layer claim whose dimensions do not go with the point. -/
  | layerClaimLength (first second point : Nat)
  /-- An integer that eight bytes do not hold. -/
  | wordOutOfRange (value : Label)
  | truthNotWritable
  | sortNotWritable (sort : String)
  | bytesMissing (needed : Int) (left : Int)
  /-- A vector that announces more elements than the bytes left can hold. -/
  | vectorTooLong (length : Nat)
  /-- A residue that is not below the modulus. -/
  | residueNotCanonical (value : Nat)
  | bytesLeft (count : Int)
  /-- A text that is no decimal integer; `shown` is the beginning of the text in quotes. -/
  | numeralExpected (shown : String)
  /-- A numeral with more digits than are read. -/
  | numeralTooLong (digits : Nat)
  /-- A number with more digits than are written. -/
  | numberTooLong
  /-- A form field that is no integer; `shown` is its text in quotes. -/
  | formNumeralExpected (name shown : String)
  | emptyRange (low high width : Int)
  /-- A sample that is negative or larger than what it is drawn from. -/
  | sampleSize
  /-- A sample from more than can be counted in a signed word. -/
  | populationTooLarge
  /-- A table size with a negative exponent. -/
  | negativeShift
  /-- An exponent with more binary digits than squarings can be nested. -/
  | exponentTooLong
  | keyMissing (key : String)
  /-- A record is asked for an entry by its place. -/
  | placeNotKey (place : Nat)
  /-- An integer is read from a document of a sort that is neither number nor text. -/
  | integerExpected (sort : String)
  | countExpected (sort : String)
  | wholeCountExpected
  | placeExpected (sort : String)
  | wholeHandleExpected
  | wholeRoundsExpected
  /-- A fraction in place of a corner, which is shifted or masked. -/
  | wholeCornerExpected (operation : String)
  | infiniteInteger
  | undefinedInteger
  | entriesExpected (sort : String)
  | lengthExpected (sort : String)
  | pairExpected (sort : String)
  | pairTooShort (length : Nat)
  | pairTooLong
  | recordExpected (sort : String)
  | optionalFieldExpected (sort : String)
  | textUnchangeable
  /-- Something of this sort is asked for what only things of another sort do. -/
  | operationMissing (sort operation : String)
  /-- The demonstration does not take this many variables. -/
  | demoVariables (most : Nat) (given : Int)
  | demoCounts
  | demoDimension (most : Nat) (given : Int)
  | demoRound (rounds : Nat) (given : Int)
  | demoPosition (given : Int)
deriving DecidableEq, Repr

namespace Fault

def kind : Fault → FaultKind
  | .proverDone _ | .challengeTooEarly | .challengeMissing
  | .verifierFull | .verifierNotFull => .invalidOperation
  | .tableCorrupt .. => .corruption
  | .roundRejected _ => .rejection
  | .wordOutOfRange _ | .truthNotWritable | .sortNotWritable _ | .bytesMissing ..
  | .vectorTooLong _ | .residueNotCanonical _ | .bytesLeft _ => .serialization
  | .numeralExpected _ | .numeralTooLong _ | .numberTooLong | .emptyRange .. | .sampleSize
  | .negativeShift | .pairTooShort _ | .pairTooLong | .undefinedInteger => .badValue
  | .keyMissing _ | .placeNotKey _ => .missingKey
  | .entryMissing | .placeMissing | .listEmpty => .missingEntry
  | .integerHasNoField | .optionalFieldExpected _ | .operationMissing .. => .missingField
  | .integerExpected _ | .countExpected _ | .wholeCountExpected | .placeExpected _
  | .wholeHandleExpected | .wholeRoundsExpected | .wholeCornerExpected _
  | .entriesExpected _ | .lengthExpected _ | .pairExpected _ | .recordExpected _
  | .textUnchangeable => .wrongShape
  | .populationTooLarge | .infiniteInteger => .overflow
  | .exponentTooLong => .depth
  | _ => .invalidArgument

/-- The round at which a proof was turned down. -/
def round? : Fault → Option Nat
  | .roundRejected round => some round
  | _ => none

def recordExpectedMessage : String → String
  | "list" => "list indices must be integers or slices, not str"
  | "str" => "string indices must be integers, not 'str'"
  | sort => s!"'{sort}' object is not subscriptable"

def digitLimitMessage (detail : String) : String :=
  s!"Exceeds the limit ({mostDigits} digits) for integer string conversion{detail}; "
    ++ "use sys.set_int_max_str_digits() to increase the limit"

/-- The wording of a cause: texts and numbers in turn. -/
def wording : Fault → List Label
  | .modulusRefused modulus => ["체의 위수는 소수여야 합니다: ", modulus]
  | .elementExpected shown sort => ["체 원소가 필요합니다: ", shown, " (", sort, ")"]
  | .integerHasNoField => ["type object 'int' has no attribute 'field_modulus'"]
  | .mixedFields found expected => ["서로 다른 체의 원소가 섞여 있습니다: ", found, ", ", expected]
  | .lengthNotPowerOfTwo length => ["테이블 길이는 2의 거듭제곱이어야 합니다: ", length]
  | .lengthNotDeclared length declared => ["테이블 길이 ", length, "가 변수 ", declared, "개와 맞지 않습니다"]
  | .indexOutOfRange index size => ["인덱스가 범위를 벗어났습니다: ", index, " (크기 ", size, ")"]
  | .duplicateIndex index => ["중복된 인덱스입니다: ", index]
  | .negativeVariables count => ["변수 개수는 음수일 수 없습니다: ", count]
  | .pointLength given expected => ["평가점의 길이가 변수 개수와 다릅니다: ", given, " != ", expected]
  | .tooManyCoordinates given available => ["고정할 변수가 너무 많습니다: ", given, " > ", available]
  | .borrowedListResized length expected => ["참조 테이블의 길이가 바뀌었습니다: ", length, " != ", expected]
  | .pointsDiffer left right => ["두 점의 길이가 다릅니다: ", left, " != ", right]
  | .noCoordinates => ["eq_extension에는 최소 한 개의 좌표가 필요합니다"]
  | .noNodes => ["보간할 평가값이 없습니다"]
  | .nodesCollide last modulus => ["노드 0..", last, "이(가) 체 위수 ", modulus, " 안에서 서로 다르지 않습니다"]
  | .emptyTerm => ["빈 곱 항은 추가할 수 없습니다"]
  | .unknownHandle handle => ["알 수 없는 MLE 핸들입니다: ", handle]
  | .variablesDiffer given expected => ["MLE의 변수 개수가 다릅니다: ", given, " != ", expected]
  | .constantPolynomial => ["상수를 증명하려고 했습니다 (변수 0개)"]
  | .noTerms => ["곱 항이 없는 다항식은 증명할 수 없습니다"]
  | .proverDone rounds => ["prover가 이미 ", rounds, "개 라운드를 모두 마쳤습니다"]
  | .challengeTooEarly => ["첫 라운드는 prover가 먼저 시작해야 합니다"]
  | .challengeMissing => ["verifier 메시지가 비어 있습니다"]
  | .tableCorrupt handle expected length =>
    ["북키핑 테이블 ", handle, "의 길이가 ", expected, "이 아닙니다: ", length]
  | .tooFewVariables count => ["변수 개수는 1 이상이어야 합니다: ", count]
  | .tooFewFactors count => ["곱 항의 길이는 1 이상이어야 합니다: ", count]
  | .verifierFull => ["verifier가 이미 모든 라운드를 받았습니다"]
  | .verifierNotFull => ["verifier가 아직 모든 라운드를 받지 않았습니다"]
  | .recordedRounds recorded expected => ["라운드 수가 맞지 않습니다: ", recorded, " != ", expected]
  | .messageLength round expected length =>
    ["라운드 ", round, "의 메시지 길이가 ", expected, "이 아닙니다: ", length]
  | .roundRejected round => ["라운드 ", round, ": prover 메시지가 주장과 일치하지 않습니다"]
  | .roundCount given expected => ["증명의 라운드 수가 변수 개수와 다릅니다: ", given, " != ", expected]
  | .emptyProof => ["빈 증명에서는 합을 꺼낼 수 없습니다"]
  | .entryMissing => ["list index out of range"]
  | .placeMissing => ["list assignment index out of range"]
  | .listEmpty => ["pop from empty list"]
  | .layerFactorsDiffer left right => ["f2와 f3의 변수 개수가 다릅니다: ", left, " != ", right]
  | .wiringVariables dimension arity => ["f1의 변수 개수는 3·", dimension, "이어야 합니다: ", arity]
  | .layerConstant => ["GKR 함수의 차원은 1 이상이어야 합니다"]
  | .layerPointLength given dimension => ["g의 길이가 차원과 다릅니다: ", given, " != ", dimension]
  | .layerDimensions wiring factor point =>
    ["차원이 맞지 않습니다: f1 ", wiring, ", f3 ", factor, ", g ", point]
  | .halfFixedVariables point arity => ["f1_g의 변수 개수는 2·", point, "이어야 합니다: ", arity]
  | .layerRoundCount first second dimension =>
    ["증명의 라운드 수가 맞지 않습니다: ", first, " + ", second, " != ", dimension, " + ", dimension]
  | .layerMessageLength length => ["메시지 길이는 3이어야 합니다: ", length]
  | .layerClaimLength first second point =>
    ["서브클레임의 차원이 g와 다릅니다: ", first, ", ", second, " != ", point]
  | .wordOutOfRange value => ["u64 범위를 벗어난 값입니다: ", value]
  | .truthNotWritable => ["bool은 직렬화할 수 없습니다"]
  | .sortNotWritable sort => ["직렬화할 수 없는 메시지 형식입니다: ", sort]
  | .bytesMissing needed left => ["입력이 잘렸습니다: ", needed, "바이트가 필요하지만 ", left, "바이트 남음"]
  | .vectorTooLong length => ["벡터 길이가 남은 입력보다 깁니다: ", length]
  | .residueNotCanonical value => ["정규형이 아닌 체 원소입니다: ", value]
  | .bytesLeft count => ["디코딩 후 ", count, "바이트가 남았습니다"]
  | .numeralExpected shown => ["invalid literal for int() with base 10: ", shown]
  | .numeralTooLong digits => [digitLimitMessage s!": value has {digits} digits"]
  | .numberTooLong => [digitLimitMessage ""]
  | .formNumeralExpected name shown => [name, "은(는) 정수여야 합니다: ", shown]
  | .emptyRange low high width =>
    ["empty range for randrange() (", low, ", ", high, ", ", width, ")"]
  | .sampleSize => ["Sample larger than population or is negative"]
  | .populationTooLarge => ["Python int too large to convert to C ssize_t"]
  | .negativeShift => ["negative shift count"]
  | .exponentTooLong => ["maximum recursion depth exceeded"]
  | .keyMissing key => ["'" ++ key ++ "'"]
  | .placeNotKey place => [place]
  | .integerExpected sort =>
    ["int() argument must be a string, a bytes-like object or a real number, not '", sort, "'"]
  | .countExpected sort => ["'<' not supported between instances of '", sort, "' and 'int'"]
  | .wholeCountExpected => ["unsupported operand type(s) for <<: 'int' and 'float'"]
  | .placeExpected sort => ["'<=' not supported between instances of 'int' and '", sort, "'"]
  | .wholeHandleExpected => ["list indices must be integers or slices, not float"]
  | .wholeRoundsExpected => ["'float' object cannot be interpreted as an integer"]
  | .wholeCornerExpected operation =>
    ["unsupported operand type(s) for ", operation, ": 'float' and 'int'"]
  | .infiniteInteger => ["cannot convert float infinity to integer"]
  | .undefinedInteger => ["cannot convert float NaN to integer"]
  | .entriesExpected sort => ["'", sort, "' object is not iterable"]
  | .lengthExpected sort => ["object of type '", sort, "' has no len()"]
  | .pairExpected sort => ["cannot unpack non-iterable ", sort, " object"]
  | .pairTooShort length => ["not enough values to unpack (expected 2, got ", length, ")"]
  | .pairTooLong => ["too many values to unpack (expected 2)"]
  | .recordExpected sort => [recordExpectedMessage sort]
  | .optionalFieldExpected sort => ["'", sort, "' object has no attribute 'get'"]
  | .textUnchangeable => ["'str' object does not support item assignment"]
  | .operationMissing sort operation => ["'", sort, "' object has no attribute '", operation, "'"]
  | .demoVariables most given => ["변수 개수는 1..", most, " 이어야 합니다: ", given]
  | .demoCounts => ["곱 항 개수와 길이는 1 이상이어야 합니다"]
  | .demoDimension most given => ["dim은 1..", most, " 이어야 합니다: ", given]
  | .demoRound rounds given => ["라운드는 1..", rounds, " 이어야 합니다: ", given]
  | .demoPosition given => ["평가값 위치가 범위를 벗어났습니다: ", given]

def message (fault : Fault) : String := String.join (fault.wording.map Label.display)

/-- A fault that names a number of variables, with the text that the number is stored with. -/
def withVariables (numVariables : Label) : Fault → Fault
  | .proverDone _ => .proverDone numVariables
  | .recordedRounds recorded _ => .recordedRounds recorded numVariables
  | .wiringVariables dimension _ => .wiringVariables dimension numVariables
  | fault => fault

end Fault

end HypercubeSum
