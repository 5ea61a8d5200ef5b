import HypercubeSum.Proofs.Transcript.Feedback

/-!
# Squeezing

What is squeezed is the beginning of one endless string of blocks, each the digest of all that was
absorbed before them and of the blocks before it. A squeeze absorbs the blocks that it has begun, so
whatever is called later takes digests of longer strings only: along any calls, each string is longer
than those before it (`pairwise_digested`), so that no two digests are taken of the same one.
-/

namespace HypercubeSum

namespace HashFunction

variable (hash : HashFunction) (content : Bytes)

/-- A block behind a byte string, the digest of the string with the blocks before it. -/
def block (number : Nat) : Block := hash.digest (content ++ hash.fedBack content number)

theorem fedBack_succ (count : Nat) :
    hash.fedBack content (count + 1) =
      hash.fedBack content count ++ (hash.block content count).toList := by
  induction count generalizing content with
  | zero => simp [fedBack, block]
  | succ count ih =>
    have last : hash.block (content ++ (hash.digest content).toList) count =
        hash.block content (count + 1) := by
      rw [block, block, fedBack, List.append_assoc]
    rw [fedBack, ih, last, ← List.append_assoc, ← fedBack]

theorem fedBack_eq_flatMap (count : Nat) :
    hash.fedBack content count =
      (List.range count).flatMap fun i => (hash.block content i).toList := by
  induction count with
  | zero => rfl
  | succ count ih =>
    rw [fedBack_succ, ih, List.range_succ, List.flatMap_append, List.flatMap_singleton]

theorem fedBack_prefix {few many : Nat} (fewer : few ≤ many) :
    hash.fedBack content few <+: hash.fedBack content many := by
  induction many, fewer using Nat.le_induction with
  | base => exact List.prefix_rfl
  | succ many _ ih =>
    rw [fedBack_succ]
    exact ih.trans (List.prefix_append _ _)

/-- The first bytes are the same in any number of blocks that has them. -/
theorem take_fedBack {count few many : Nat} (enough : count ≤ 64 * few) (more : count ≤ 64 * many) :
    (hash.fedBack content few).take count = (hash.fedBack content many).take count := by
  rcases Nat.le_total few many with fewer | fewer
  · obtain ⟨rest, split⟩ := hash.fedBack_prefix content fewer
    rw [← split, List.take_append_of_le_length (by rwa [length_fedBack])]
  · obtain ⟨rest, split⟩ := hash.fedBack_prefix content fewer
    rw [← split, List.take_append_of_le_length (by rwa [length_fedBack])]

end HashFunction

namespace Transcript

variable {hash : HashFunction}

def content (t : Transcript hash) : Bytes := t.absorbed.content.toList

/--
Squeezing byte by byte, where a block is read from a place on: a block is absorbed as soon as its last
byte is taken, and the block that is being read is absorbed in the end, whether a byte of it was taken
or not.
-/
def readBytes (absorbed : Absorbed hash) (block : Block) (place : Nat) :
    Nat → Bytes × Absorbed hash
  | 0 => ([], absorbed.append block.toList)
  | count + 1 =>
    let rest :=
      if place + 1 = 64 then
        let absorbed := absorbed.append block.toList
        readBytes absorbed absorbed.digest 0 count
      else readBytes absorbed block (place + 1) count
    (block.toList.getD place 0 :: rest.1, rest.2)

/-- What is read from a place of a block on: bytes of the block, and those squeezed behind it. -/
def readFrom (absorbed : Absorbed hash) (place count : Nat) : Bytes × Absorbed hash :=
  let block := absorbed.digest.toList
  let absorbed := absorbed.append block
  if count < 64 - place then ((block.drop place).take count, absorbed)
  else
    let rest := squeezeFrom absorbed (count - (64 - place))
    (block.drop place ++ rest.1, rest.2)

theorem readFrom_zero (absorbed : Absorbed hash) (count : Nat) :
    readFrom absorbed 0 count = squeezeFrom absorbed count := by
  rw [squeezeFrom]
  rfl

theorem readBytes_eq (absorbed : Absorbed hash) {place : Nat} (inside : place < 64) (count : Nat) :
    readBytes absorbed absorbed.digest place count = readFrom absorbed place count := by
  induction count generalizing absorbed place with
  | zero => simp [readBytes, readFrom, inside]
  | succ count ih =>
    have here : place < absorbed.digest.toList.length := by simpa using inside
    have first : absorbed.digest.toList.drop place =
        absorbed.digest.toList.getD place 0 :: absorbed.digest.toList.drop (place + 1) := by
      rw [List.drop_eq_getElem_cons here, List.getD_eq_getElem?_getD, List.getElem?_eq_getElem here,
        Option.getD_some]
    rw [readBytes, readFrom, first]
    by_cases last : place + 1 = 64
    · -- The block is used up with this byte, and what follows is squeezed from its digest.
      have behind : readBytes (absorbed.append absorbed.digest.toList) _ 0 count =
          readFrom (absorbed.append absorbed.digest.toList) 0 count := ih _ (by decide)
      have used : absorbed.digest.toList.drop (place + 1) = [] := by simp [last]
      have width : 64 - place = 1 := by omega
      simp only [if_pos last, behind, readFrom_zero, used, width]
      simp
    · have next : readBytes absorbed _ (place + 1) count = readFrom absorbed (place + 1) count :=
        ih absorbed (by omega)
      have width : 64 - place = 64 - (place + 1) + 1 := by omega
      simp only [if_neg last, next, readFrom, width, Nat.add_lt_add_iff_right,
        Nat.add_sub_add_right]
      split <;> rfl

/-- So squeezing byte by byte is squeezing block by block. -/
theorem readBytes_digest (absorbed : Absorbed hash) (count : Nat) :
    readBytes absorbed absorbed.digest 0 count = squeezeFrom absorbed count :=
  (readBytes_eq absorbed (by decide) count).trans (readFrom_zero absorbed count)

/-- Squeezing gives the first bytes of the blocks, and absorbs all blocks that it has begun. -/
theorem squeezeBytes_eq (t : Transcript hash) (count : Nat) :
    (t.squeezeBytes count).1 = (hash.fedBack t.content (count / 64 + 1)).take count ∧
      (t.squeezeBytes count).2.content =
        t.content ++ hash.fedBack t.content (count / 64 + 1) ∧
      (t.squeezeBytes count).2.field = t.field := by
  have taken := squeezeFrom_eq t.absorbed count
  exact ⟨taken.1, taken.2, rfl⟩

theorem squeezeBytes_prefix (t : Transcript hash) {few many : Nat} (fewer : few ≤ many) :
    (t.squeezeBytes few).1 <+: (t.squeezeBytes many).1 := by
  have same : (hash.fedBack t.content (few / 64 + 1)).take few =
      (hash.fedBack t.content (many / 64 + 1)).take few :=
    hash.take_fedBack t.content (by omega) (by omega)
  rw [(t.squeezeBytes_eq few).1, (t.squeezeBytes_eq many).1, same]
  exact List.take_prefix_take_left fewer

/-- The strings whose digests a squeeze takes: what was absorbed, and again whenever a block is used
up, with that block behind it. -/
def digestedFrom (absorbed : Absorbed hash) (count : Nat) : List Bytes :=
  absorbed.content.toList ::
    if count < 64 then [] else digestedFrom (absorbed.append absorbed.digest.toList) (count - 64)
termination_by count

/-- They are what was absorbed with the blocks before each behind it. -/
theorem digestedFrom_eq (absorbed : Absorbed hash) (count : Nat) :
    digestedFrom absorbed count = (List.range (count / 64 + 1)).map fun i =>
      absorbed.content.toList ++ hash.fedBack absorbed.content.toList i := by
  induction count using Nat.strongRecOn generalizing absorbed with
  | ind count ih =>
    rw [digestedFrom]
    by_cases few : count < 64
    · have single : count / 64 = 0 := by omega
      simp [few, single, HashFunction.fedBack]
    · have more : count / 64 = (count - 64) / 64 + 1 := by omega
      have later := ih (count - 64) (by omega) (absorbed.append absorbed.digest.toList)
      rw [Absorbed.toList_append, absorbed.digest_eq] at later
      rw [if_neg few, absorbed.digest_eq, later, more, List.range_succ_eq_map (n := _ + 1),
        List.map_cons, List.map_map, HashFunction.fedBack, List.append_nil]
      simp only [Function.comp_def, HashFunction.fedBack, List.append_assoc]

/-- Their digests are what a squeeze absorbs. -/
theorem flatMap_digestedFrom (absorbed : Absorbed hash) (count : Nat) :
    ((digestedFrom absorbed count).flatMap fun content => (hash.digest content).toList) =
      hash.fedBack absorbed.content.toList (count / 64 + 1) := by
  rw [digestedFrom_eq, List.flatMap_map, HashFunction.fedBack_eq_flatMap]
  rfl

/-- Each string is longer than the one before it. -/
theorem pairwise_digestedFrom (absorbed : Absorbed hash) (count : Nat) :
    (digestedFrom absorbed count).Pairwise fun a b => a.length < b.length := by
  rw [digestedFrom_eq, List.pairwise_map]
  apply List.pairwise_lt_range.imp
  intro i j before
  simp only [List.length_append, HashFunction.length_fedBack]
  omega

theorem length_of_mem_digestedFrom {absorbed : Absorbed hash} {count : Nat} {string : Bytes}
    (member : string ∈ digestedFrom absorbed count) :
    absorbed.content.toList.length ≤ string.length ∧
      string.length < absorbed.content.toList.length + 64 * (count / 64 + 1) := by
  rw [digestedFrom_eq] at member
  obtain ⟨i, inside, rfl⟩ := List.mem_map.1 member
  have few := List.mem_range.1 inside
  simp only [List.length_append, HashFunction.length_fedBack]
  omega

end Transcript

inductive TranscriptCall
  | feed (message : Message)
  | bytes (count : Nat)
  | challenge

inductive TranscriptAnswer
  | taken
  | bytes (content : Bytes)
  | challenge (x : Element)

variable {hash : HashFunction}

def TranscriptCall.run : TranscriptCall → Run (Transcript hash) TranscriptAnswer
  | feed message => do
    Challenger.absorb message
    return .taken
  | bytes count => .bytes <$> modifyGet (Transcript.squeezeBytes count)
  | challenge => .challenge <$> Challenger.draw

/-- A call that was made, with what came of it. -/
structure TranscriptStep (hash : HashFunction) where
  call : TranscriptCall
  before : Transcript hash
  /-- What the call gave, or why it was refused. -/
  outcome : Except Fault TranscriptAnswer
  after : Transcript hash

def TranscriptCall.step (call : TranscriptCall) (t : Transcript hash) : TranscriptStep hash :=
  ⟨call, t, (Run.start call.run t).1, (Run.start call.run t).2⟩

/-- Calls made one after the other, whatever came of those before. -/
def TranscriptCall.steps : List TranscriptCall → Transcript hash → List (TranscriptStep hash)
  | [], _ => []
  | call :: rest, t => call.step t :: steps rest (call.step t).after

namespace TranscriptStep

/-- The strings whose digests a call takes. -/
def digested (step : TranscriptStep hash) : List Bytes :=
  match step.call with
  | .feed _ => []
  | .bytes count => Transcript.digestedFrom step.before.absorbed count
  | .challenge =>
    Transcript.digestedFrom step.before.absorbed
      (step.before.field.byteWidth + Transcript.extraBytes)

/-- The digests of these strings, one after the other. -/
def blocks (step : TranscriptStep hash) : Bytes :=
  step.digested.flatMap fun content => (hash.digest content).toList

/--
What holds of every call on a transcript with challenges in a field, which stays. A message that is
refused changes nothing, any other is absorbed in its written form. Bytes are the first of the blocks
of the call, a challenge is a canonical element of the field, and both absorb all of these blocks.
-/
def Sound (F : Modulus) (step : TranscriptStep hash) : Prop :=
  step.after.field = F ∧
    match step.call with
    | .feed message =>
      (∀ fault, step.outcome = .error fault → step.after = step.before) ∧
        ∀ answer, step.outcome = .ok answer →
          ∃ bytes, message.toBytes = .ok bytes ∧ step.after.content = step.before.content ++ bytes
    | .bytes count =>
      step.outcome = .ok (.bytes (step.blocks.take count)) ∧
        step.after.content = step.before.content ++ step.blocks
    | .challenge =>
      (∃ x : Element, step.outcome = .ok (.challenge x) ∧ (x : Scalar).CanonicalIn F) ∧
        step.after.content = step.before.content ++ step.blocks

/-- A call takes digests of ever longer strings, which the transcript had absorbed by then. -/
structure Ascending (step : TranscriptStep hash) : Prop where
  /-- What was absorbed stays. -/
  longer : step.before.content.length ≤ step.after.content.length
  /-- Each string is longer than the one before it. -/
  pairwise : step.digested.Pairwise fun a b => a.length < b.length
  /-- They are as long as what was absorbed before the call, and shorter than what was after it. -/
  inside : ∀ string ∈ step.digested,
    step.before.content.length ≤ string.length ∧ string.length < step.after.content.length

end TranscriptStep

namespace TranscriptCall

/-- A message that is fed is refused, and nothing happens, or it is absorbed. -/
theorem step_feed (message : Message) (t : Transcript hash) :
    (∃ fault, ((feed message).step t).outcome = .error fault ∧ ((feed message).step t).after = t) ∨
      ∃ bytes, message.toBytes = .ok bytes ∧ ((feed message).step t).outcome = .ok .taken ∧
        ((feed message).step t).after.content = t.content ++ bytes ∧
        ((feed message).step t).after.field = t.field := by
  simp only [step, run, Run.start_bind]
  cases fed : Challenger.feed message t with
  | error fault =>
    rw [Challenger.start_absorb_refused fed]
    exact .inl ⟨fault, rfl, rfl⟩
  | ok later =>
    rw [Challenger.start_absorb fed]
    obtain ⟨bytes, written, content⟩ := Transcript.content_feed fed
    exact .inr ⟨bytes, written, rfl, content, Transcript.feed_field fed⟩

theorem sound_step (call : TranscriptCall) (t : Transcript hash) : (call.step t).Sound t.field := by
  have blocks (count : Nat) : (t.squeezeBytes count).2.content = t.content ++
      (Transcript.digestedFrom t.absorbed count).flatMap fun s => (hash.digest s).toList := by
    rw [(t.squeezeBytes_eq count).2.1, Transcript.flatMap_digestedFrom]
    rfl
  cases call with
  | feed message =>
    rcases step_feed message t with ⟨fault, refused, kept⟩ | ⟨bytes, written, taken, content, field⟩
    · refine ⟨by rw [kept], fun _ _ => kept, fun answer given => ?_⟩
      cases refused.symm.trans given
    · refine ⟨field, fun fault failed => ?_, fun _ _ => ⟨bytes, written, content⟩⟩
      cases taken.symm.trans failed
  | bytes count =>
    have first : (t.squeezeBytes count).1 = ((bytes count).step t).blocks.take count := by
      rw [(t.squeezeBytes_eq count).1, Transcript.content, ← Transcript.flatMap_digestedFrom]
      rfl
    exact ⟨rfl, congrArg (fun b => Except.ok (TranscriptAnswer.bytes b)) first, blocks count⟩
  | challenge =>
    obtain ⟨a, reduced⟩ := (Transcript.listens t.field).squeeze_eq (s := t) rfl
    refine ⟨rfl, ⟨t.squeeze.1, rfl, ?_⟩, blocks _⟩
    exact reduced ▸ t.field.canonicalIn_embed a

theorem ascending_step (call : TranscriptCall) (t : Transcript hash) : (call.step t).Ascending := by
  have squeezed (count : Nat) {step : TranscriptStep hash} (before : step.before = t)
      (after : step.after = (t.squeezeBytes count).2)
      (digested : step.digested = Transcript.digestedFrom t.absorbed count) : step.Ascending := by
    have length : step.after.content.length = t.content.length + 64 * (count / 64 + 1) := by
      rw [after, (t.squeezeBytes_eq count).2.1, List.length_append, HashFunction.length_fedBack]
    refine ⟨by rw [before, length]; omega, ?_, fun string member => ?_⟩
    · rw [digested]
      exact Transcript.pairwise_digestedFrom _ _
    · rw [digested] at member
      rw [before, length]
      exact Transcript.length_of_mem_digestedFrom member
  cases call with
  | feed message =>
    refine ⟨?_, List.Pairwise.nil, fun string none => absurd none List.not_mem_nil⟩
    change t.content.length ≤ _
    rcases step_feed message t with ⟨fault, -, kept⟩ | ⟨bytes, -, -, content, -⟩
    · rw [kept]
    · rw [content, List.length_append]
      omega
  | bytes count => exact squeezed count rfl rfl rfl
  | challenge => exact squeezed _ rfl rfl rfl

theorem sound_steps (calls : List TranscriptCall) (t : Transcript hash) :
    ∀ step ∈ steps calls t, step.Sound t.field := by
  induction calls generalizing t with
  | nil => simp [steps]
  | cons call rest ih =>
    have first := call.sound_step t
    intro step member
    rcases List.mem_cons.1 member with rfl | later
    · exact first
    · have kept := ih (call.step t).after step later
      rwa [first.1] at kept

/-- Along any calls, each string is longer than those before it. -/
theorem pairwise_digested (calls : List TranscriptCall) (t : Transcript hash) :
    ((steps calls t).flatMap TranscriptStep.digested).Pairwise (fun a b => a.length < b.length) ∧
      ∀ string ∈ (steps calls t).flatMap TranscriptStep.digested,
        t.content.length ≤ string.length := by
  induction calls generalizing t with
  | nil => simp [steps]
  | cons call rest ih =>
    obtain ⟨longer, pairwise, inside⟩ := call.ascending_step t
    obtain ⟨later, above⟩ := ih (call.step t).after
    rw [steps, List.flatMap_cons]
    constructor
    · rw [List.pairwise_append]
      refine ⟨pairwise, later, fun a first b second => ?_⟩
      exact Nat.lt_of_lt_of_le (inside a first).2 (above b second)
    · intro string member
      rcases List.mem_append.1 member with first | second
      · exact (inside string first).1
      · exact longer.trans (above string second)

end TranscriptCall

/--
What is squeezed from a transcript are the first bytes of blocks, each of which is the digest of all
that was absorbed with the blocks before it behind; what is absorbed then are all blocks that were
begun, which is what reading the blocks byte by byte leaves. So fewer bytes are the beginning of more.
Along any calls, the strings whose digests make up the blocks are all different, a message that is
refused leaves the transcript as it was, and the challenges are canonical elements of its field.
-/
theorem squeezing_fresh (t : Transcript hash) :
    (∃ block : Nat → Block,
      let blocks (count : Nat) : Bytes := (List.range count).flatMap fun i => (block i).toList
      (∀ i, block i = hash.digest (t.content ++ blocks i)) ∧
        ∀ count, (t.squeezeBytes count).1.length = count ∧
          (∀ enough, count ≤ 64 * enough →
            (t.squeezeBytes count).1 = (blocks enough).take count) ∧
          (t.squeezeBytes count).2.content = t.content ++ blocks (count / 64 + 1) ∧
          Transcript.readBytes t.absorbed t.absorbed.digest 0 count =
            ((t.squeezeBytes count).1, (t.squeezeBytes count).2.absorbed)) ∧
      (∀ few many, few ≤ many → (t.squeezeBytes few).1 <+: (t.squeezeBytes many).1) ∧
      ∀ calls : List TranscriptCall,
        ((TranscriptCall.steps calls t).flatMap TranscriptStep.digested).Nodup ∧
          ∀ step ∈ TranscriptCall.steps calls t, step.Sound t.field := by
  refine ⟨⟨hash.block t.content, ?_⟩, fun few many => t.squeezeBytes_prefix, fun calls => ⟨?_, ?_⟩⟩
  · intro blocks
    have listed (count : Nat) : hash.fedBack t.content count = blocks count :=
      hash.fedBack_eq_flatMap t.content count
    refine ⟨fun i => by rw [← listed]; rfl, fun count => ?_⟩
    obtain ⟨bytes, content, -⟩ := t.squeezeBytes_eq count
    refine ⟨?_, fun enough more => ?_, ?_, Transcript.readBytes_digest t.absorbed count⟩
    · rw [bytes, List.length_take, HashFunction.length_fedBack]
      omega
    · rw [bytes, ← listed]
      exact hash.take_fedBack t.content (by omega) more
    · rw [content, listed]
  · apply (TranscriptCall.pairwise_digested calls t).1.imp
    intro a b shorter same
    rw [same] at shorter
    exact Nat.lt_irrefl _ shorter
  · exact TranscriptCall.sound_steps calls t

end HypercubeSum
