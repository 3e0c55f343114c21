import WaveHazard.Proofs.CounterMachine

/-! # The place of an operation in its queue

A wait can tell that an operation has left a counter when the threshold is at most the number of
operations that must leave after it: the younger operations of the same event on the same counter,
or none where the event completes out of order. This number is the *room* of the operation. It
does not change while other operations leave, and it grows by one with every operation of the same
event that is issued.

Invariants of the analysis are stated about every operation in flight together with its room.
-/

namespace WaveHazard.Hazard

open Machine Wait

variable {generation : Generation}

/-- The number of operations that leave the counter of a token after it. -/
def room (generation : Generation) (token : Token) (younger : Flight) : Nat :=
  if token.isUnordered generation then 0 else younger.countP token.sharesQueue

/-- A property holds of every operation in flight and its room. -/
def Tallied (generation : Generation) (property : Token → Nat → Prop) (flight : Flight) : Prop :=
  ∀ older token younger, flight = older ++ token :: younger →
    property token (room generation token younger)

/-- The rooms of two parts of a flight add up. -/
theorem room_append (token : Token) (first second : Flight) :
    room generation token (first ++ second) =
      room generation token first + room generation token second := by
  unfold room
  split
  · rfl
  · exact List.countP_append

/-- More operations are outstanding than there is room behind any one of them. -/
theorem room_lt_outstanding (older : Flight) (token : Token) (younger : Flight) :
    room generation token younger < outstanding (older ++ token :: younger) token.counter := by
  have behind : room generation token younger ≤ outstanding younger token.counter := by
    unfold room outstanding
    split
    · exact Nat.zero_le _
    · apply List.countP_mono_left
      intro other _ shares
      simp only [Token.sharesQueue, decide_eq_true_eq] at shares ⊢
      exact shares.1.symm
  have counted : outstanding (older ++ token :: younger) token.counter =
      outstanding older token.counter + (outstanding younger token.counter + 1) := by
    simp [outstanding]
  omega

/-- An operation in flight has more room than any threshold that is met. -/
theorem room_lt_of_met (generation : Generation) {wait : Requirement} {older younger : Flight}
    {token : Token} (met : Met wait (older ++ token :: younger)) {bound : Nat}
    (asked : wait.get token.counter = some bound) : room generation token younger < bound :=
  Nat.lt_of_lt_of_le (room_lt_outstanding older token younger) (met token.counter bound asked)

/-- While an operation is in flight, the room behind it stays the same. -/
theorem room_of_retires {flight older younger : Flight} {token : Token}
    (retires : Retires generation flight (older ++ token :: younger)) :
    ∃ before after, flight = before ++ token :: after ∧
      room generation token after = room generation token younger := by
  generalize remains : older ++ token :: younger = next at retires
  cases retires with
  | leave first gone last free =>
      rcases List.append_eq_append_iff.mp remains with ⟨middle, rfl, same⟩ | ⟨middle, rfl, rfl⟩
      · rcases List.cons_eq_append_iff.mp same with ⟨rfl, rfl⟩ | ⟨between, rfl, rfl⟩
        · exact ⟨older ++ [gone], younger, by simp, rfl⟩
        · -- The operation that left was younger, so it was not in the queue of an ordered event.
          refine ⟨older, between ++ gone :: last, by simp, ?_⟩
          unfold room
          split
          · rfl
          · rename_i ordered
            have apart : token.sharesQueue gone = false := by
              rcases free with unordered | last
              · cases shares : token.sharesQueue gone with
                | false => rfl
                | true =>
                    simp only [Token.sharesQueue, decide_eq_true_eq] at shares
                    unfold Token.isUnordered at unordered ordered
                    rw [shares.2] at ordered
                    exact absurd unordered ordered
              · exact last token (by simp)
            simp [List.countP_append, apart]
      · exact ⟨first ++ gone :: middle, younger, by simp, rfl⟩

namespace Tallied

variable {property other : Token → Nat → Prop} {flight : Flight}

theorem nil : Tallied generation property [] := by
  intro older token younger split
  simp at split

/-- The property may be weakened. -/
theorem mono (tallied : Tallied generation property flight)
    (weaken : ∀ token count, token ∈ flight → property token count → other token count) :
    Tallied generation other flight := by
  intro older token younger split
  exact weaken token _ (by simp [split]) (tallied older token younger split)

/-- The property is kept when an operation completes. -/
theorem retires {next : Flight} (tallied : Tallied generation property flight)
    (retires : Retires generation flight next) : Tallied generation property next := by
  intro older token younger split
  subst split
  obtain ⟨before, after, same, unchanged⟩ := room_of_retires retires
  rw [← unchanged]
  exact tallied before token after same

/-- The property is kept when any number of operations complete. -/
theorem drains {next : Flight} (tallied : Tallied generation property flight)
    (drains : Drains generation flight next) : Tallied generation property next := by
  induction drains with
  | refl => exact tallied
  | tail _ step ih => exact ih.retires step

/-- What is known of a flight is known of every operation in it. -/
theorem of_mem (tallied : Tallied generation property flight) {token : Token}
    (member : token ∈ flight) : ∃ count, property token count := by
  obtain ⟨older, younger, split⟩ := List.append_of_mem member
  exact ⟨_, tallied older token younger split⟩

/-- Operations that are issued add to the room of those in flight. -/
theorem append {more : Flight} (tallied : Tallied generation property flight)
    (kept : ∀ token count, token ∈ flight → property token count →
      other token (count + room generation token more))
    (fresh : Tallied generation other more) : Tallied generation other (flight ++ more) := by
  intro older token younger split
  rcases List.append_eq_append_iff.mp split with ⟨middle, rfl, rfl⟩ | ⟨middle, rfl, same⟩
  · exact fresh middle token younger rfl
  · rcases List.cons_eq_append_iff.mp same with ⟨rfl, rfl⟩ | ⟨between, rfl, rfl⟩
    · exact fresh [] token younger rfl
    · rw [room_append]
      exact kept token _ (by simp) (tallied older token between rfl)

end Tallied

end WaveHazard.Hazard
