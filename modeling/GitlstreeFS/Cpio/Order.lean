import GitlstreeFS.Cpio.File
import GitlstreeFS.WeakOrder

/-!
# The order of `hardlink_map`

`operator<` of `HardlinkKey` says that `a` is less than `b` as soon as one of its three numbers is, whatever
the others are. This is the complement of the componentwise order, turned around (`lt_iff`). So it orders
the keys of a map just if they are a chain of that order, as the keys of one device are.
-/

namespace GitlstreeFS.Cpio

namespace HardlinkKey

/-- None of the three numbers is greater. -/
def AtMost (a b : HardlinkKey) : Prop :=
  a.major ≤ b.major ∧ a.minor ≤ b.minor ∧ a.inode ≤ b.inode

instance (a b : HardlinkKey) : Decidable (a.AtMost b) :=
  inferInstanceAs (Decidable (_ ∧ _))

instance : IsPartialOrder HardlinkKey AtMost where
  refl a := ⟨le_refl _, le_refl _, le_refl _⟩
  trans a b c h h' := ⟨h.1.trans h'.1, h.2.1.trans h'.2.1, h.2.2.trans h'.2.2⟩
  antisymm a b h h' := by
    obtain ⟨major, minor, inode⟩ := a
    obtain ⟨major', minor', inode'⟩ := b
    obtain rfl : major = major' := le_antisymm h.1 h'.1
    obtain rfl : minor = minor' := le_antisymm h.2.1 h'.2.1
    obtain rfl : inode = inode' := le_antisymm h.2.2 h'.2.2
    rfl

/-- A key is less just if the other one is not at most as great. -/
theorem lt_iff {a b : HardlinkKey} : a.lt b ↔ ¬ b.AtMost a := by
  rw [lt, AtMost, not_and_or, not_and_or, not_le, not_le, not_le]

/-- The keys of one device are a chain. -/
theorem isChain_device (major minor : ℤ) :
    IsChain AtMost {a : HardlinkKey | a.major = major ∧ a.minor = minor} := by
  rintro a ⟨rfl, rfl⟩ b ⟨h_major, h_minor⟩ _
  rcases le_total a.inode b.inode with h_le | h_le
  · exact .inl ⟨h_major.ge, h_minor.ge, h_le⟩
  · exact .inr ⟨h_major.le, h_minor.le, h_le⟩

end HardlinkKey

/-- Where the map is defined, its keys are a chain. -/
theorem ordered_iff_isChain (keys : List HardlinkKey) :
    Ordered keys ↔ IsChain HardlinkKey.AtMost {a | a ∈ keys} := by
  constructor
  · intro h a ha b hb _
    have h_not := h a ha b hb
    rw [HardlinkKey.lt_iff, HardlinkKey.lt_iff, ← not_or, not_not] at h_not
    exact h_not.symm
  · intro h a ha b hb h_lt
    rw [HardlinkKey.lt_iff, HardlinkKey.lt_iff, ← not_or] at h_lt
    exact h_lt (h.below ha hb).symm

/-- **`operator<` is a strict weak ordering** of a set of keys just if of every two of them one is at most
the other in each of the three numbers. -/
theorem strictWeakOn_lt_iff (K : Set HardlinkKey) :
    StrictWeakOn HardlinkKey.lt K ↔ IsChain HardlinkKey.AtMost K := by
  have h_lt : HardlinkKey.lt = fun a b => ¬ b.AtMost a := by
    ext a b
    exact HardlinkKey.lt_iff
  rw [h_lt]
  exact strictWeakOn_not_le_iff

/-- Of two files, one on the device 8:1 and the other on 9:0, each is less than the other. -/
theorem lt_devices_not_strictWeak :
    ¬ StrictWeakOn HardlinkKey.lt {⟨8, 1, 10⟩, ⟨9, 0, 10⟩} := by
  intro h
  have h_lt : HardlinkKey.lt ⟨8, 1, 10⟩ ⟨9, 0, 10⟩ := by decide
  have h_gt : HardlinkKey.lt ⟨9, 0, 10⟩ ⟨8, 1, 10⟩ := by decide
  exact h.asymm _ (.inl rfl) _ (.inr rfl) h_lt h_gt

end GitlstreeFS.Cpio
