import Complementarity.Proofs.ExactConversion

/-!
# Converting integer data to rational numbers

Integers of at most 53 bits are binary64 numbers, and every binary64 number is rational, so data
whose height has at most 53 bits convert to the same problem in rational numbers
(`convert_rat_of_height_lt`).
-/

namespace Complementarity.Benchmark

open Binary

theorem isInt64_of_natAbs_lt {v : ℤ} (h : v.natAbs < 2 ^ 53) : IsInt64 v := by
  constructor
  · show -9223372036854775808 ≤ v
    omega
  · show v ≤ 9223372036854775807
    omega

theorem convertEntry_rat {v : ℤ} (h : v.natAbs < 2 ^ 53) : convertEntry ℚ v = .ok (v : ℚ) := by
  obtain ⟨r, hr, hvalue⟩ := convertEntry_of_isRepresentable (α := ℚ) (isInt64_of_natAbs_lt h)
    ⟨isDouble_intCast h, v, rfl⟩
  obtain rfl : r = v := Option.some.inj hvalue
  exact hr

/-- **Conversion to rational numbers.** -/
theorem convert_rat_of_height_lt {n : Nat} (p : Lcp ℤ n) (h : p.height < 2 ^ 53) :
    convert ℚ p = .ok p.toRat := by
  have hentry : ∀ v ∈ p.entries, convertEntry ℚ v = .ok (v : ℚ) :=
    Lcp.forall_mem_entries_iff.2 ⟨fun i => convertEntry_rat ((p.natAbs_get_q_le i).trans_lt h),
      fun i j => convertEntry_rat ((p.natAbs_entry_le i j).trans_lt h)⟩
  cases hconvert : convert ℚ p with
  | ok s =>
    obtain ⟨hq, hm⟩ := Lcp.forall_mem_entries_iff.1 hentry
    obtain ⟨hconstants, hentries⟩ := convertEntry_of_convert hconvert
    obtain ⟨q, m⟩ := s
    have hqs : q = p.toRat.q := vector_ext fun i => by
      rw [p.get_q_toRat]
      exact Except.ok.inj ((hconstants i).symm.trans (hq i))
    have hms : m = p.toRat.m := Dense.ext fun i j => by
      rw [p.entry_m_toRat]
      exact Except.ok.inj ((hentries i j).symm.trans (hm i j))
    rw [hqs, hms]
  | error error =>
    obtain ⟨_, v, _, hsplit, -, hv⟩ := exists_first_of_convert hconvert
    have hmem : v ∈ p.entries := hsplit ▸ List.mem_append_right _ List.mem_cons_self
    cases hv.symm.trans (hentry v hmem)

end Complementarity.Benchmark
