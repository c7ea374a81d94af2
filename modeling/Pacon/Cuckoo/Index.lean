import Pacon.Cuckoo.Model

namespace Pacon.Cuckoo

def Home (hp : Nat) (h : BitVec 64) (i : Nat) : Prop :=
  i = indexHash hp h ∨ i = altIndex hp (tagOf h) (indexHash hp h)

variable {hp i : Nat} {h : BitVec 64} {tag : BitVec 8}

theorem indexHash_eq : indexHash hp h = h.toNat % 2 ^ hp :=
  Nat.and_two_pow_sub_one_eq_mod ..

theorem altIndex_eq :
    altIndex hp tag i = (i ^^^ ((tag.toNat + 1) * 0xc6a4a7935bd1e995 % 2 ^ 64)) % 2 ^ hp :=
  Nat.and_two_pow_sub_one_eq_mod ..

theorem lockInd_eq (b : Nat) : lockInd b = b % 2 ^ 16 :=
  Nat.and_two_pow_sub_one_eq_mod ..

theorem lockInd_lt (b : Nat) : lockInd b < maxNumLocks := by
  rw [lockInd_eq]
  exact Nat.mod_lt _ (Nat.two_pow_pos _)

theorem indexHash_lt : indexHash hp h < 2 ^ hp := by
  rw [indexHash_eq]
  exact Nat.mod_lt _ (Nat.two_pow_pos _)

theorem altIndex_lt : altIndex hp tag i < 2 ^ hp := by
  rw [altIndex_eq]
  exact Nat.mod_lt _ (Nat.two_pow_pos _)

theorem altIndex_altIndex (inside : i < 2 ^ hp) : altIndex hp tag (altIndex hp tag i) = i := by
  rw [altIndex_eq, altIndex_eq, Nat.xor_mod_two_pow, Nat.mod_mod, ← Nat.xor_mod_two_pow, Nat.xor_assoc,
    Nat.xor_self, Nat.xor_zero, Nat.mod_eq_of_lt inside]

theorem indexHash_succ_mod : indexHash (hp + 1) h % 2 ^ hp = indexHash hp h := by
  rw [indexHash_eq, indexHash_eq, Nat.mod_mod_of_dvd _ (Nat.pow_dvd_pow 2 (Nat.le_succ hp))]

theorem altIndex_succ_mod : altIndex (hp + 1) tag i % 2 ^ hp = altIndex hp tag (i % 2 ^ hp) := by
  rw [altIndex_eq, altIndex_eq, Nat.mod_mod_of_dvd _ (Nat.pow_dvd_pow 2 (Nat.le_succ hp)), Nat.xor_mod_two_pow,
    Nat.xor_mod_two_pow, Nat.mod_mod]

theorem Home.lt (home : Home hp h i) : i < 2 ^ hp := by
  rcases home with rfl | rfl
  · exact indexHash_lt
  · exact altIndex_lt

theorem Home.alt (home : Home hp h i) : Home hp h (altIndex hp (tagOf h) i) := by
  rcases home with rfl | rfl
  · exact .inr rfl
  · exact .inl (altIndex_altIndex indexHash_lt)

theorem Home.above (home : Home hp h i) : ∃ j, Home (hp + 1) h j ∧ j % 2 ^ hp = i := by
  rcases home with rfl | rfl
  · exact ⟨_, .inl rfl, indexHash_succ_mod⟩
  · refine ⟨_, .inr rfl, ?_⟩
    rw [altIndex_succ_mod, indexHash_succ_mod]

theorem eq_or_add {j : Nat} (inside : j < 2 ^ (hp + 1)) (below : j % 2 ^ hp = i) : j = i ∨ j = i + 2 ^ hp := by
  have double : 2 ^ (hp + 1) = 2 ^ hp + 2 ^ hp := by rw [pow_succ, Nat.mul_two]
  rcases Nat.lt_or_ge j (2 ^ hp) with small | large
  · rw [Nat.mod_eq_of_lt small] at below
    exact .inl below
  · rw [Nat.mod_eq_sub_mod large, Nat.mod_eq_of_lt (by omega)] at below
    omega

theorem Home.double (home : Home hp h i) :
    if i = indexHash hp h ∧ indexHash (hp + 1) h = i + 2 ^ hp ∨
        i = altIndex hp (tagOf h) (indexHash hp h) ∧
          altIndex (hp + 1) (tagOf h) (indexHash (hp + 1) h) = i + 2 ^ hp
    then Home (hp + 1) h (i + 2 ^ hp) else Home (hp + 1) h i := by
  split
  · rename_i up
    rcases up with ⟨-, top⟩ | ⟨-, top⟩
    · exact .inl top.symm
    · exact .inr top.symm
  · rename_i stays
    obtain ⟨first, second⟩ := not_or.mp stays
    rcases home with here | here
    · have below : indexHash (hp + 1) h % 2 ^ hp = i := by rw [indexHash_succ_mod, here]
      exact .inl ((eq_or_add indexHash_lt below).resolve_right fun top => first ⟨here, top⟩).symm
    · have below : altIndex (hp + 1) (tagOf h) (indexHash (hp + 1) h) % 2 ^ hp = i := by
        rw [altIndex_succ_mod, indexHash_succ_mod, here]
      exact .inr ((eq_or_add altIndex_lt below).resolve_right fun top => second ⟨here, top⟩).symm

end Pacon.Cuckoo
