import HypercubeSum.Proofs.Argument.Exchange
import HypercubeSum.Proofs.Transcript.Feedback
import HypercubeSum.Proofs.Transcript.Watching
import HypercubeSum.Proofs.Wire.WrittenForms

/-!
# What a challenge is bound to

When a challenge of a verifier is drawn, the transcript has absorbed what came before the rounds and
then the messages of the rounds with what the challenges between them fed back. As a field fixes how
much is fed back, and written forms tell where they end, this string tells the messages apart
(`Asked.messages_eq`).
-/

namespace HypercubeSum

open Challenger

def CanonicalMessages (F : Modulus) (messages : List RoundMessage) : Prop :=
  ∀ message ∈ messages, ∀ v ∈ message, v.CanonicalIn F

/-- The written forms of messages, behind each the bytes that the challenge to it feeds back. -/
inductive Spoken (F : Modulus) : List RoundMessage → Bytes → Prop
  | nil : Spoken F [] []
  | cons {message : RoundMessage} {messages : List RoundMessage} {bytes back rest : Bytes}
    (written : Bytes.ofVector message = .ok bytes)
    (length : back.length = 64 * Transcript.feedbackCount F) (later : Spoken F messages rest) :
    Spoken F (message :: messages) (bytes ++ (back ++ rest))

/-- The same, up to the moment when the challenge to the last message is drawn. -/
inductive Asked (F : Modulus) : List RoundMessage → Bytes → Prop
  | last {message : RoundMessage} {bytes : Bytes} (written : Bytes.ofVector message = .ok bytes) :
    Asked F [message] bytes
  | cons {message : RoundMessage} {messages : List RoundMessage} {bytes back rest : Bytes}
    (written : Bytes.ofVector message = .ok bytes)
    (length : back.length = 64 * Transcript.feedbackCount F) (later : Asked F messages rest) :
    Asked F (message :: messages) (bytes ++ (back ++ rest))

section Strings

variable {F : Modulus} {messages others : List RoundMessage} {bytes rest : Bytes}

theorem Spoken.asked (spoken : Spoken F messages bytes) (asked : Asked F others rest) :
    Asked F (messages ++ others) (bytes ++ rest) := by
  induction spoken with
  | nil => exact asked
  | cons written length later ih =>
    rw [List.append_assoc, List.append_assoc]
    exact .cons written length ih

theorem Spoken.append (spoken : Spoken F messages bytes) (later : Spoken F others rest) :
    Spoken F (messages ++ others) (bytes ++ rest) := by
  induction spoken with
  | nil => exact later
  | cons written length _ ih =>
    rw [List.append_assoc, List.append_assoc]
    exact .cons written length ih

/-- The string up to a challenge tells the messages before it apart, and so how many they are. -/
theorem Asked.messages_eq (known : CanonicalMessages F messages)
    (known' : CanonicalMessages F others) (asked : Asked F messages bytes)
    (asked' : Asked F others bytes) : messages = others := by
  -- Strings of the two cases differ: behind the last message nothing follows, behind the others at
  -- least one digest does.
  have some : 0 < 64 * Transcript.feedbackCount F := by
    unfold Transcript.feedbackCount
    omega
  have front {m m' : RoundMessage} {ms ms' : List RoundMessage} {a b x y : Bytes}
      (known : CanonicalMessages F (m :: ms)) (known' : CanonicalMessages F (m' :: ms'))
      (written : Bytes.ofVector m = .ok a) (written' : Bytes.ofVector m' = .ok b)
      (same : a ++ x = b ++ y) : m = m' ∧ x = y :=
    have values := known m List.mem_cons_self
    have values' := known' m' List.mem_cons_self
    (Bytes.counted_of_ofVector values written).append_inj values values'
      (Bytes.counted_of_ofVector values' written') same
  have ends {back : Bytes} (length : back.length = 64 * Transcript.feedbackCount F) (rest : Bytes)
      (none : [] = back ++ rest) : False := by
    have empty := congrArg List.length none
    rw [List.length_nil, List.length_append, length] at empty
    omega
  induction asked generalizing others with
  | @last message bytes written =>
    generalize same : bytes = bytes' at asked'
    cases asked' with
    | last written' =>
      obtain ⟨rfl, -⟩ := front (x := []) (y := []) known known' written written' (by rw [same])
      rfl
    | cons written' length' later' =>
      obtain ⟨-, none⟩ := front (x := []) known known' written written'
        ((List.append_nil _).trans same)
      exact (ends length' _ none).elim
  | @cons message messages bytes back rest written length later ih =>
    generalize same : bytes ++ (back ++ rest) = bytes' at asked'
    cases asked' with
    | last written' =>
      obtain ⟨-, none⟩ := front (y := []) known known' written written'
        (same.trans (List.append_nil _).symm)
      exact (ends length _ none.symm).elim
    | cons written' length' later' =>
      obtain ⟨rfl, behind⟩ := front known known' written written' same
      obtain ⟨-, rfl⟩ := List.append_inj behind (length.trans length'.symm)
      rw [ih (fun m member => known m (List.mem_cons_of_mem _ member))
        (fun m member => known' m (List.mem_cons_of_mem _ member)) later']

/-- So the string up to a challenge tells which challenge it is. -/
theorem Asked.take_eq {i j : Nat} (known : CanonicalMessages F messages)
    (known' : CanonicalMessages F others) (inside : i < messages.length)
    (inside' : j < others.length) (asked : Asked F (messages.take (i + 1)) bytes)
    (asked' : Asked F (others.take (j + 1)) bytes) :
    i = j ∧ messages.take (i + 1) = others.take (j + 1) := by
  have same := asked.messages_eq (fun m member => known m (List.mem_of_mem_take member))
    (fun m member => known' m (List.mem_of_mem_take member)) asked'
  have rounds := congrArg List.length same
  rw [List.length_take_of_le inside, List.length_take_of_le inside'] at rounds
  exact ⟨Nat.succ.inj rounds, same⟩

end Strings

namespace Watched

variable {hash : HashFunction} {F : Modulus} {w middle later : Watched hash}
  {messages others : List RoundMessage} {strings strings' : List Bytes}

/-- On the way between two states, at most these messages were fed and a challenge was drawn after
each; the strings are what had been absorbed then. -/
structure Heard (F : Modulus) (w later : Watched hash) (messages : List RoundMessage)
    (strings : List Bytes) : Prop where
  /-- The strings were written down. -/
  drawn : later.drawn = w.drawn ++ strings
  field : later.transcript.field = F
  few : strings.length ≤ messages.length
  /-- The strings end with the messages so far. -/
  asked : ∀ i string, strings[i]? = some string →
    ∃ bytes, string = w.content ++ bytes ∧ Asked F (messages.take (i + 1)) bytes

/-- On the way between two states all of these messages were fed and answered. -/
structure HeardAll (F : Modulus) (w later : Watched hash) (messages : List RoundMessage)
    (strings : List Bytes) : Prop extends Heard F w later messages strings where
  all : strings.length = messages.length
  /-- The messages were absorbed with what was fed back. -/
  content : ∃ bytes, Spoken F messages bytes ∧ later.content = w.content ++ bytes

theorem Heard.refl (field : w.transcript.field = F) (messages : List RoundMessage) :
    Heard F w w messages [] :=
  ⟨by simp, field, by simp, by simp⟩

theorem Heard.lt_length (heard : Heard F w later messages strings) {i : Nat} {string : Bytes}
    (found : strings[i]? = some string) : i < messages.length := by
  obtain ⟨inside, -⟩ := List.getElem?_eq_some_iff.1 found
  exact Nat.lt_of_lt_of_le inside heard.few

theorem Heard.more (heard : Heard F w later messages strings) (others : List RoundMessage) :
    Heard F w later (messages ++ others) strings := by
  refine ⟨heard.drawn, heard.field, ?_, fun i string found => ?_⟩
  · have few := heard.few
    rw [List.length_append]
    omega
  · rw [List.take_append_of_le_length (heard.lt_length found)]
    exact heard.asked i string found

theorem HeardAll.trans (first : HeardAll F w middle messages strings)
    (second : Heard F middle later others strings') :
    Heard F w later (messages ++ others) (strings ++ strings') := by
  obtain ⟨bytes, spoken, content⟩ := first.content
  refine ⟨?_, second.field, ?_, fun i string found => ?_⟩
  · rw [second.drawn, first.drawn, List.append_assoc]
  · have few := second.few
    rw [List.length_append, List.length_append, first.all]
    omega
  · rcases Nat.lt_or_ge i strings.length with low | high
    · rw [List.getElem?_append_left low] at found
      rw [List.take_append_of_le_length (by have := first.all; omega)]
      exact first.asked i string found
    · rw [List.getElem?_append_right high] at found
      obtain ⟨rest, rfl, asked⟩ := second.asked _ string found
      have place : i + 1 = messages.length + (i - strings.length + 1) := by
        have := first.all
        omega
      refine ⟨bytes ++ rest, by rw [content, List.append_assoc], ?_⟩
      rw [place, List.take_length_add_append]
      exact spoken.asked asked

theorem HeardAll.trans_all (first : HeardAll F w middle messages strings)
    (second : HeardAll F middle later others strings') :
    HeardAll F w later (messages ++ others) (strings ++ strings') := by
  obtain ⟨bytes, spoken, content⟩ := first.content
  obtain ⟨rest, spoken', content'⟩ := second.content
  refine ⟨first.trans second.toHeard, ?_, bytes ++ rest, spoken.append spoken', ?_⟩
  · rw [List.length_append, List.length_append, first.all, second.all]
  · rw [content', content, List.append_assoc]

/-- A message that is taken in is written behind what was absorbed. -/
theorem feed_eq_ok {message : Message} {heard : Watched hash} (fed : feed message w = .ok heard) :
    heard.drawn = w.drawn ∧ heard.transcript.field = w.transcript.field ∧
      ∃ bytes, message.toBytes = .ok bytes ∧ heard.content = w.content ++ bytes := by
  change (fun t => ({ w with transcript := t } : Watched hash)) <$>
    w.transcript.feed message = .ok heard at fed
  cases outcome : w.transcript.feed message with
  | error fault =>
    rw [outcome] at fed
    cases fed
  | ok t =>
    rw [outcome] at fed
    cases fed
    exact ⟨rfl, Transcript.feed_field outcome, Transcript.content_feed outcome⟩

theorem heardAll_single {message : RoundMessage} {heard : Watched hash}
    (field : w.transcript.field = F) (fed : feed (.round message) w = .ok heard) :
    HeardAll F w (squeeze heard).2 [message] [heard.content] := by
  obtain ⟨drawn, kept, bytes, written, content⟩ := feed_eq_ok fed
  have same := kept.trans field
  rw [Message.toBytes] at written
  refine ⟨⟨congrArg (· ++ [heard.content]) drawn, heard.transcript.squeeze_eq.2.trans same,
    Nat.le_refl 1, fun i string found => ?_⟩, rfl, ?_⟩
  · cases i with
    | zero =>
      cases found
      exact ⟨bytes, content, .last written⟩
    | succ i => simp at found
  · let back := hash.fedBack heard.content (Transcript.feedbackCount F)
    refine ⟨bytes ++ (back ++ []), .cons written (hash.length_fedBack _ _) .nil, ?_⟩
    have left : (squeeze heard).2.content =
        heard.content ++ hash.fedBack heard.content (Transcript.feedbackCount F) := by
      rw [← same]
      exact heard.transcript.content_squeeze
    rw [left, List.append_nil, ← List.append_assoc, ← content]

/-- The rounds of a verifier feed the messages one after the other, all of them unless one fails. -/
theorem heard_verifyRounds (messages : List RoundMessage) (v : Verifier)
    (field : w.transcript.field = F) :
    ∃ strings, Heard F w (Run.start (verifyRounds messages v) w).2 messages strings ∧
      ∀ final, (Run.start (verifyRounds messages v) w).1 = .ok final →
        HeardAll F w (Run.start (verifyRounds messages v) w).2 messages strings := by
  induction messages generalizing v w with
  | nil =>
    exact ⟨[], .refl field [], fun _ _ => ⟨.refl field [], rfl, [], .nil, (List.append_nil _).symm⟩⟩
  | cons message messages ih =>
    cases fed : feed (.round message) w with
    | error fault =>
      rw [start_verifyRounds_refused fed]
      exact ⟨[], .refl field _, fun _ success => by cases success⟩
    | ok heard =>
      rw [start_verifyRounds_cons fed]
      split
      · -- The message is absorbed, but no challenge to it is drawn.
        obtain ⟨drawn, kept, -⟩ := feed_eq_ok fed
        exact ⟨[], ⟨by simpa using drawn, kept.trans field, by simp, by simp⟩,
          fun _ success => by cases success⟩
      · have single := heardAll_single field fed
        obtain ⟨strings, rest, success⟩ :=
          ih (v.record message ((squeeze heard).1 : Scalar)) single.field
        exact ⟨_, single.trans rest, fun final done => single.trans_all (success final done)⟩

theorem heard_verifyPhase (shape : Shape) (messages : List RoundMessage) (claimed : Scalar)
    (field : w.transcript.field = F) :
    ∃ strings, Heard F w (Run.start (verifyPhase shape messages claimed) w).2 messages strings ∧
      ∀ sub, (Run.start (verifyPhase shape messages claimed) w).1 = .ok sub →
        HeardAll F w (Run.start (verifyPhase shape messages claimed) w).2 messages strings := by
  rw [verifyPhase, Run.start_bind, Run.start_lift]
  cases Verifier.start shape with
  | error fault => exact ⟨[], .refl field _, fun _ success => by cases success⟩
  | ok v =>
    obtain ⟨strings, heard, success⟩ := heard_verifyRounds messages v field
    refine ⟨strings, ?_⟩
    simp only [Run.start_bind]
    generalize Run.start (verifyRounds messages v) w = rounds at heard success
    obtain ⟨_ | final, later⟩ := rounds
    · exact ⟨heard, fun _ success => by cases success⟩
    · exact ⟨heard, fun _ _ => success final rfl⟩

end Watched

end HypercubeSum
