import HypercubeSum.Proofs.Transcript.Challengers

/-!
# What a squeeze feeds back

A squeeze absorbs digests, each of all that was absorbed before it, one for every 64 bytes that are
taken and one more. How many these are depends on the field of the challenges alone.
-/

namespace HypercubeSum

/-- Digests behind a byte string, each of all that stands before it. -/
def HashFunction.fedBack (hash : HashFunction) (content : Bytes) : Nat → Bytes
  | 0 => []
  | count + 1 =>
    let block := (hash.digest content).toList
    block ++ hash.fedBack (content ++ block) count

theorem HashFunction.length_fedBack (hash : HashFunction) (content : Bytes) (count : Nat) :
    (hash.fedBack content count).length = 64 * count := by
  induction count generalizing content with
  | zero => rfl
  | succ count ih =>
    rw [fedBack, List.length_append, ih, Vector.length_toList]
    omega

namespace Transcript

variable {hash : HashFunction}

/-- The bytes taken are the first of those fed back. -/
theorem squeezeFrom_eq (absorbed : Absorbed hash) (count : Nat) :
    let back := hash.fedBack absorbed.content.toList (count / 64 + 1)
    (squeezeFrom absorbed count).1 = back.take count ∧
      (squeezeFrom absorbed count).2.content.toList = absorbed.content.toList ++ back := by
  induction count using Nat.strongRecOn generalizing absorbed with
  | ind count ih =>
    have block : absorbed.digest = hash.digest absorbed.content.toList := absorbed.digest_eq
    rw [squeezeFrom]
    by_cases few : count < 64
    · have single : count / 64 = 0 := by omega
      simp only [few, if_true, single, HashFunction.fedBack, block, Absorbed.toList_append,
        List.append_nil, and_self]
    · have more : count / 64 = (count - 64) / 64 + 1 := by omega
      obtain ⟨bytes, content⟩ := ih (count - 64) (by omega)
        (absorbed.append absorbed.digest.toList)
      rw [Absorbed.toList_append, block] at bytes content
      have long : (hash.digest absorbed.content.toList).toList.length ≤ count := by
        rw [Vector.length_toList]
        omega
      rw [more, HashFunction.fedBack]
      simp only [few, if_false, block]
      refine ⟨?_, ?_⟩
      · rw [bytes, List.take_append, List.take_of_length_le long, Vector.length_toList]
      · rw [content, List.append_assoc]

/-- The number of digests that a challenge in a field feeds back. -/
def feedbackCount (F : Modulus) : Nat := (F.byteWidth + extraBytes) / 64 + 1

/-- A challenge leaves the string that was absorbed with the digests behind it. -/
theorem content_squeeze (t : Transcript hash) :
    t.squeeze.2.absorbed.content.toList =
      t.absorbed.content.toList ++
        hash.fedBack t.absorbed.content.toList (feedbackCount t.field) :=
  (squeezeFrom_eq t.absorbed (t.field.byteWidth + extraBytes)).2

theorem content_feed {message : Message} {t later : Transcript hash}
    (h : t.feed message = .ok later) :
    ∃ bytes, message.toBytes = .ok bytes ∧
      later.absorbed.content.toList = t.absorbed.content.toList ++ bytes := by
  obtain ⟨bytes, written, h⟩ := bind_eq_ok h
  cases h
  exact ⟨bytes, written, Absorbed.toList_append _ _⟩

end Transcript

end HypercubeSum
