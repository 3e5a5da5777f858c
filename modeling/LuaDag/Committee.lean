import LuaDag.Devnet
import LuaDag.Quorum

/-! A validator set under attack: `3f + 1` members, at most `f` of them Byzantine, and
signatures that only their owners can make. -/
namespace LuaDag

structure Committee where
  set : ValidatorSet
  faults : Nat
  byzantine : Finset ValidatorId
  someFault : 1 ≤ faults
  size : set.entries.length = 3 * faults + 1
  distinct : (set.entries.map (·.id)).Nodup
  few : byzantine.card ≤ faults

/-- What verifies under the key of an honest member has been signed by its node. -/
def Unforgeable (cr : Crypto) (com : Committee) (log : ValidatorId → List SignReq) : Prop :=
  ∀ e ∈ com.set.entries, e.id ∉ com.byzantine → ∀ pk, cr.pkFromBytes e.blsPubkey = some pk →
    ∀ dst msg sig, cr.verify pk dst msg sig = true → (dst, msg) ∈ log e.id

def HasSigned (cr : Crypto) (set : ValidatorSet) (dst : Dst) (msg : Bytes) (i : Nat) : Prop :=
  ∃ e pk sig, set.entries[i]? = some e ∧ cr.pkFromBytes e.blsPubkey = some pk ∧
    cr.verify pk dst msg sig = true

theorem HasSigned.of_honest {cr : Crypto} {com : Committee} {log : ValidatorId → List SignReq}
    (hunf : Unforgeable cr com log) {dst : Dst} {msg : Bytes} {i : Nat} {e : ValidatorEntry}
    (h : HasSigned cr com.set dst msg i) (he : com.set.entries[i]? = some e)
    (hid : e.id ∉ com.byzantine) : (dst, msg) ∈ log e.id := by
  obtain ⟨e', pk, sig, he', hpk, hsig⟩ := h
  cases he.symm.trans he'
  exact hunf e (List.mem_of_getElem? he) hid pk hpk dst msg sig hsig

namespace Committee
variable (com : Committee)

theorem threshold : quorumThreshold com.set.entries.length = 2 * com.faults + 1 := by
  rw [quorumThreshold, com.size, Nat.add_sub_cancel, Nat.mul_div_cancel_left _ (by decide)]

theorem common_honest {A B : Finset Nat} (hA : A ⊆ Finset.range com.set.entries.length)
    (hB : B ⊆ Finset.range com.set.entries.length)
    (hcA : quorumThreshold com.set.entries.length ≤ A.card)
    (hcB : quorumThreshold com.set.entries.length ≤ B.card) :
    ∃ i ∈ A, i ∈ B ∧ ∃ e, com.set.entries[i]? = some e ∧ e.id ∉ com.byzantine := by
  rw [com.threshold] at hcA hcB
  have hbad := (Quorum.card_positions_le com.distinct com.byzantine).trans com.few
  have hU : (Finset.range com.set.entries.length).card ≤ 3 * com.faults + 1 := by
    rw [Finset.card_range, com.size]
  obtain ⟨i, hiA, hiB, hnot⟩ := Quorum.common_outside hU hA hB hcA hcB hbad
  have hlt := Finset.mem_range.mp (hA hiA)
  refine ⟨i, hiA, hiB, com.set.entries.get ⟨i, hlt⟩, List.getElem?_eq_getElem hlt, ?_⟩
  intro hbyz
  exact hnot (Quorum.mem_positions.mpr ⟨_, List.getElem?_eq_getElem hlt, hbyz⟩)

end Committee

namespace Devnet

def committee : Committee where
  set := validators
  faults := 1
  byzantine := {⟨3⟩}
  someFault := by decide
  size := by decide
  distinct := by decide
  few := by decide

/-- Nobody forges if every record of an honest member is in its log. -/
theorem unforgeable {reg : List Record} {log : ValidatorId → List SignReq}
    (h : ∀ r ∈ reg, r.1 = 3 ∨ r.2 ∈ log ⟨r.1⟩) :
    Unforgeable (crypto (recordedIn reg)) committee log := by
  intro e he hid pk hpk dst msg sig hsig
  cases hpk
  simp only [crypto, recordedIn, Bool.and_eq_true, decide_eq_true_eq] at hsig
  have hall : ∀ m ∈ committee.set.entries, m.blsPubkey.val = m.id.val ∧
      (m.id.val = 3 → m.id ∈ committee.byzantine) := by decide
  have hkey := hall e he
  cases h _ hsig.2 with
  | inl hbyz => exact absurd (hkey.2 (hkey.1.symm.trans hbyz)) hid
  | inr hlog =>
    rw [hkey.1] at hlog
    exact hlog

end Devnet
end LuaDag
