import Mathlib.Data.Set.Insert
import Mathlib.Logic.Function.Basic

namespace HackerUnion.Durable

/-- Records by their keys, and the addresses that are entered in a list which is kept beside
them. -/
structure Roster (κ ρ ι : Type) where
  record : κ → Option ρ
  entries : Set ι

namespace Roster

variable {κ ρ ι : Type} (address : ρ → ι) (wants : ρ → Prop) (R : Roster κ ρ ι)

/-- Every entry is the address of a record that wants to be entered. -/
def Sound : Prop := ∀ x ∈ R.entries, ∃ k r, R.record k = some r ∧ address r = x ∧ wants r

/-- No other record has the address. -/
def Alone (k : κ) : Prop :=
  ∀ j r r', R.record k = some r → R.record j = some r' → address r' = address r → j = k

/-- A record that wants to be entered is, unless it shares its address. -/
def Complete : Prop :=
  ∀ k r, R.record k = some r → R.Alone address k → wants r → address r ∈ R.entries

/-- The list as it would be if it were made anew from the records. -/
def rebuilt : Set ι := {x | ∃ k r, R.record k = some r ∧ wants r ∧ address r = x}

/-- A record is written, and the list changed. -/
def put [DecidableEq κ] (k : κ) (r : ρ) (entries : Set ι) : Roster κ ρ ι :=
  ⟨Function.update R.record k (some r), entries⟩

variable {address wants R} {entries : Set ι} {k : κ} {r : ρ}

/-- In a list that is sound and complete a record is entered exactly if it wants to be. -/
theorem entered_iff (hsound : R.Sound address wants) (hcomplete : R.Complete address wants)
    (halone : R.Alone address k) (hr : R.record k = some r) :
    address r ∈ R.entries ↔ wants r := by
  constructor
  · intro hentered
    obtain ⟨j, r', hj, haddress, hwants⟩ := hsound (address r) hentered
    obtain rfl := halone j r r' hr hj haddress
    obtain rfl := Option.some.inj (hr.symm.trans hj)
    exact hwants
  · exact hcomplete k r hr halone

/-- A sound list is as it would be rebuilt if and only if nothing is missing from it. -/
theorem entries_eq_rebuilt_iff (hsound : R.Sound address wants) :
    R.entries = R.rebuilt address wants ↔
      ∀ k r, R.record k = some r → wants r → address r ∈ R.entries := by
  constructor
  · intro heq k r hr hwants
    rw [heq]
    exact ⟨k, r, hr, hwants, rfl⟩
  · intro hall
    ext x
    constructor
    · intro hx
      obtain ⟨k, r, hr, haddress, hwants⟩ := hsound x hx
      exact ⟨k, r, hr, hwants, haddress⟩
    · intro hx
      obtain ⟨k, r, hr, hwants, rfl⟩ := hx
      exact hall k r hr hwants

variable [DecidableEq κ]

/-- Nothing is entered that is not wanted, and what is wanted no longer is taken out. -/
theorem Sound.put (hsound : R.Sound address wants)
    (hentries : ∀ x ∈ entries, x ∈ R.entries ∨ wants r ∧ address r = x)
    (hold : ∀ r₀, R.record k = some r₀ →
      address r₀ = address r ∧ (wants r₀ → wants r ∨ address r ∉ entries)) :
    (R.put k r entries).Sound address wants := by
  intro x hx
  have hown (hr : wants r) (hx : address r = x) :
      ∃ j r', (R.put k r entries).record j = some r' ∧ address r' = x ∧ wants r' :=
    ⟨k, r, by simp [Roster.put], hx, hr⟩
  rcases hentries x hx with hbefore | ⟨hr, haddress⟩
  · obtain ⟨j, r', hj, haddress, hwants⟩ := hsound x hbefore
    by_cases hkey : j = k
    · subst hkey
      obtain ⟨hsame, hstays⟩ := hold r' hj
      rcases hstays hwants with hr | hout
      · exact hown hr (hsame.symm.trans haddress)
      · rw [← hsame, haddress] at hout
        exact absurd hx hout
    · exact ⟨j, r', by simp [Roster.put, hkey, hj], haddress, hwants⟩
  · exact hown hr haddress

/-- A record that is alone after a write was so before. -/
theorem alone_of_put {j : κ} (hold : ∀ r₀, R.record k = some r₀ → address r₀ = address r)
    (h : (R.put k r entries).Alone address j) : R.Alone address j := by
  intro i r₁ r₂ hj hi haddress
  have hafter (m : κ) (s : ρ) (hm : R.record m = some s) :
      ∃ s', (R.put k r entries).record m = some s' ∧ address s' = address s := by
    by_cases hkey : m = k
    · subst hkey
      exact ⟨r, by simp [Roster.put], (hold s hm).symm⟩
    · exact ⟨s, by simp [Roster.put, hkey, hm], rfl⟩
  obtain ⟨s₁, hs₁, he₁⟩ := hafter j r₁ hj
  obtain ⟨s₂, hs₂, he₂⟩ := hafter i r₂ hi
  exact h i s₁ s₂ hs₁ hs₂ (by rw [he₁, he₂, haddress])

/-- The record that is written is entered if it is to be, and no other is taken out. -/
theorem Complete.put (hcomplete : R.Complete address wants)
    (hentries : ∀ x ∈ R.entries, x ∈ entries ∨ x = address r)
    (hold : ∀ r₀, R.record k = some r₀ → address r₀ = address r)
    (hown : wants r → address r ∈ entries ∨
      (∃ r₀, R.record k = some r₀ ∧ wants r₀ ∧ R.entries ⊆ entries)) :
    (R.put k r entries).Complete address wants := by
  intro j s hj halone hwants
  have hbefore := alone_of_put hold halone
  by_cases hkey : j = k
  · subst hkey
    obtain rfl : r = s := by simpa [Roster.put] using hj
    rcases hown hwants with hin | ⟨r₀, hr₀, hwants₀, hsub⟩
    · exact hin
    · rw [← hold r₀ hr₀]
      exact hsub (hcomplete j r₀ hr₀ hbefore hwants₀)
  · have hs : R.record j = some s := by simpa [Roster.put, hkey] using hj
    rcases hentries _ (hcomplete j s hs hbefore hwants) with hin | hsame
    · exact hin
    · have hk : (R.put k r entries).record k = some r := by simp [Roster.put]
      exact absurd (halone k s r hj hk hsame.symm).symm hkey

end Roster

end HackerUnion.Durable
