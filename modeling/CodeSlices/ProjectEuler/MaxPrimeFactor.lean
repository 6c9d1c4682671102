import Mathlib.Data.List.Basic
import CodeSlices.Lib.Logged
import CodeSlices.ProjectEuler.Prime

/-!
# The factors that are displayed

`lisp/projecteuler.net/p3.rkt`. What `displayln` writes is logged.
-/

namespace CodeSlices.ProjectEuler.P3

open CodeSlices.Logged

def isPrime (m : Platform) (fuel : Nat) (p : ℤ) : Except Fault Bool :=
  if p % 2 = 0 then .ok false
  else if m.eq (p.tmod 3) 0 then .ok false
  else if m.eq (p.tmod 5) 0 then .ok false
  else find m p fuel 7

/-- `next-prime`. The last clause of its loop names the loop and then returns the next number. -/
def nextPrime (m : Platform) (fuel : Nat) (g : ℤ) : Except Fault ℤ := do
  let n := g + 1
  if ← isPrime m fuel n then
    return n
  else
    return n + 1

/-- `max-prime-factor`. Its first clause names `displayln` and returns the text after it. -/
def maxPrimeFactor (m : Platform) (fuel : Nat) (n : ℤ) : Nat → ℤ → Logged ℤ Fault String
  | 0, _ => throw .running
  | rounds + 1, guess => do
      if guess > n.tdiv 2 then
        return "Out of range"
      else if guess = 0 then
        throw .divideByZero
      else if m.eq (n.tmod guess) 0 then
        emit guess
        maxPrimeFactor m fuel n rounds (← nextPrime m fuel guess)
      else
        maxPrimeFactor m fuel n rounds (← nextPrime m fuel guess)

/-- The numbers with the property, each once and in increasing order. -/
def Lists (P : ℕ → Prop) (shown : List ℕ) : Prop :=
  shown.Pairwise (· < ·) ∧ ∀ k, k ∈ shown ↔ P k

/-- Called with the guess, `max-prime-factor` returns and displays the divisors of `n` up to `n / 2`
that have the property. -/
def Displays (m : Platform) (n guess : ℕ) (P : ℕ → Prop) : Prop :=
  ∃ bound shown, Lists (fun k => P k ∧ k ∣ n ∧ k ≤ n / 2) shown ∧
    ∀ fuel ≥ bound, ∀ rounds ≥ bound,
      Yields (maxPrimeFactor m fuel n rounds guess) (shown.map Nat.cast) "Out of range"

variable {m : Platform} {n p g fuel : ℕ} {P Q : ℕ → Prop}

/-! ### The next candidate -/

/-- 2, 3 and 5 are not primes here. -/
theorem isPrime_eq (hp : 2 ≤ p) (hfuel : p ≤ fuel) :
    isPrime m fuel p = .ok (decide (p.Prime ∧ 7 ≤ p ∧ m.IsFixnum p)) := by
  have h3 : m.eq ((p : ℤ).tmod 3) 0 = decide (3 ∣ p) := eq_tmod_zero m p 3
  have h5 : m.eq ((p : ℤ).tmod 5) 0 = decide (5 ∣ p) := eq_tmod_zero m p 5
  have hsmall : ∀ q ∈ [2, 3, 5], q ∣ p → ¬ (p.Prime ∧ 7 ≤ p ∧ m.IsFixnum p) := by
    rintro q hq hdvd ⟨hprime, hle, -⟩
    have hq' : q = 2 ∨ q = 3 ∨ q = 5 := by simpa using hq
    exact not_prime_of_dvd (by omega) hdvd (by omega) hprime
  simp only [isPrime, mod_two_eq_zero_iff, h3, h5, decide_eq_true_eq]
  split_ifs with hd2 hd3 hd5
  · rw [decide_eq_false (hsmall 2 (by decide) hd2)]
  · rw [decide_eq_false (hsmall 3 (by decide) hd3)]
  · rw [decide_eq_false (hsmall 5 (by decide) hd5)]
  · have hle := (seven_le_minFac hp hd2 hd3 hd5).trans (Nat.minFac_le (by omega))
    rw [find_seven m hp hd2 hd3 hd5 hfuel]
    exact congrArg _ (decide_eq_decide.mpr (and_congr_right' (and_iff_right hle).symm))

def candidateAfter (m : Platform) (g : ℕ) : ℕ :=
  if (g + 1).Prime ∧ 7 ≤ g + 1 ∧ m.IsFixnum (g + 1 : ℕ) then g + 1 else g + 2

theorem nextPrime_eq (hg : 2 ≤ g) (hfuel : g < fuel) :
    nextPrime m fuel g = .ok (candidateAfter m g : ℕ) := by
  have hprime : isPrime m fuel ((g : ℤ) + 1) = _ := isPrime_eq (p := g + 1) (by omega) hfuel
  rw [nextPrime, hprime, candidateAfter]
  by_cases h : (g + 1).Prime ∧ 7 ≤ g + 1 ∧ m.IsFixnum (g + 1 : ℕ)
  · rw [if_pos h, decide_eq_true h]
    rfl
  · rw [if_neg h, decide_eq_false h]
    rfl

theorem candidateAfter_of_odd (hodd : ¬ 2 ∣ g) : candidateAfter m g = g + 2 := by
  have hdvd : 2 ∣ g + 1 := by omega
  exact if_neg fun h => not_prime_of_dvd (by decide) hdvd (by omega) h.1

theorem candidateAfter_two : candidateAfter m 2 = 4 := if_neg fun h => absurd h.2.1 (by decide)

theorem candidateAfter_four : candidateAfter m 4 = 6 := if_neg fun h => absurd h.2.1 (by decide)

theorem candidateAfter_six : candidateAfter m 6 = 7 :=
  if_pos ⟨by decide, by decide, m.isFixnum_of_small (by decide) (by decide)⟩

/-! ### The loop -/

theorem Displays.congr (hdisplays : Displays m n g P) (hPQ : ∀ k, P k ↔ Q k) :
    Displays m n g Q := by
  obtain rfl : P = Q := funext fun k => propext (hPQ k)
  exact hdisplays

/-- What is displayed tells the divisors up to `n / 2` that have the property from the others. -/
theorem Displays.iff (hP : Displays m n g P) (hQ : Displays m n g Q) {k : ℕ} (hdvd : k ∣ n)
    (hle : k ≤ n / 2) : P k ↔ Q k := by
  obtain ⟨bound, shown, ⟨-, hmem⟩, hrun⟩ := hP
  obtain ⟨bound', shown', ⟨-, hmem'⟩, hrun'⟩ := hQ
  have hlog := (hrun (max bound bound') (Nat.le_max_left _ _) _ (Nat.le_max_left _ _)).unique_log
    (hrun' (max bound bound') (Nat.le_max_right _ _) _ (Nat.le_max_right _ _))
  obtain rfl : shown = shown' := List.map_injective_iff.mpr Nat.cast_injective hlog
  have hiff := (hmem k).symm.trans (hmem' k)
  simpa [hdvd, hle] using hiff

theorem tdiv_two_lt_iff (n g : ℕ) : (n : ℤ).tdiv 2 < g ↔ n / 2 < g := by
  have hcast : (n : ℤ).tdiv 2 = (n / 2 : ℕ) := (Int.ofNat_tdiv n 2).symm
  rw [hcast, Nat.cast_lt]

theorem displays_of_lt (hlt : n / 2 < g) (hP : ∀ k, P k → g ≤ k) : Displays m n g P := by
  refine ⟨1, [], ⟨List.Pairwise.nil, fun k => ?_⟩, fun fuel _ rounds hrounds => ?_⟩
  · refine iff_of_false List.not_mem_nil ?_
    rintro ⟨hk, -, hle⟩
    exact absurd (hP k hk) (by omega)
  · obtain ⟨rounds, rfl⟩ := Nat.exists_eq_add_of_le' hrounds
    rw [maxPrimeFactor, if_pos ((tdiv_two_lt_iff n g).mpr hlt)]
    exact Yields.pure _

/-- One pass of the loop, which displays the guess or not, and the passes from the next candidate
on. -/
theorem displays_step (hg : 2 ≤ g) (hlt : ∀ k, P k → g < k)
    (hrest : Displays m n (candidateAfter m g) P) : Displays m n g fun k => k = g ∨ P k := by
  by_cases hover : n / 2 < g
  · refine displays_of_lt hover ?_
    rintro k (rfl | hk)
    · exact le_rfl
    · exact (hlt k hk).le
  · obtain ⟨bound, shown, ⟨hsorted, hmem⟩, hrun⟩ := hrest
    have hloop : ∀ fuel ≥ max bound (g + 1), ∀ rounds ≥ bound,
        Yields (liftM (nextPrime m fuel g) >>= maxPrimeFactor m fuel n rounds)
          (shown.map Nat.cast) "Out of range" := fun fuel hfuel rounds hrounds =>
      (Yields.lift (nextPrime_eq hg (le_of_max_le_right hfuel))).bind
        (hrun fuel (le_of_max_le_left hfuel) rounds hrounds)
    have hpass : ∀ fuel rounds, maxPrimeFactor m fuel n (rounds + 1) g =
        if g ∣ n then emit (g : ℤ) >>= fun _ => liftM (nextPrime m fuel g) >>=
          maxPrimeFactor m fuel n rounds
        else liftM (nextPrime m fuel g) >>= maxPrimeFactor m fuel n rounds := by
      intro fuel rounds
      rw [maxPrimeFactor, if_neg (mt (tdiv_two_lt_iff n g).mp hover), if_neg (by omega),
        eq_tmod_zero]
      simp only [decide_eq_true_eq]
    by_cases hdvd : g ∣ n
    · refine ⟨max bound (g + 1) + 1, g :: shown, ⟨?_, fun k => ?_⟩, fun fuel hfuel rounds hr => ?_⟩
      · exact List.pairwise_cons.mpr ⟨fun k hk => hlt k ((hmem k).mp hk).1, hsorted⟩
      · change k ∈ g :: shown ↔ (k = g ∨ P k) ∧ k ∣ n ∧ k ≤ n / 2
        rw [List.mem_cons, hmem, or_and_right]
        refine or_congr_left (iff_self_and.mpr ?_)
        rintro rfl
        exact ⟨hdvd, Nat.le_of_not_lt hover⟩
      · obtain ⟨rounds, rfl⟩ := Nat.exists_eq_add_of_le' (Nat.le_trans (Nat.le_add_left 1 _) hr)
        rw [hpass, if_pos hdvd]
        exact (Yields.emit _).bind (hloop fuel (by omega) rounds (by omega))
    · refine ⟨max bound (g + 1) + 1, shown, ⟨hsorted, fun k => ?_⟩, fun fuel hfuel rounds hr => ?_⟩
      · change k ∈ shown ↔ (k = g ∨ P k) ∧ k ∣ n ∧ k ≤ n / 2
        rw [hmem, or_and_right]
        refine (or_iff_right ?_).symm
        rintro ⟨rfl, hk, -⟩
        exact hdvd hk
      · obtain ⟨rounds, rfl⟩ := Nat.exists_eq_add_of_le' (Nat.le_trans (Nat.le_add_left 1 _) hr)
        rw [hpass, if_neg hdvd]
        exact hloop fuel (by omega) rounds (by omega)

/-- From 7 on every second number is a candidate. -/
theorem displays_odd (hg : 7 ≤ g) (hodd : ¬ 2 ∣ g) :
    Displays m n g fun k => g ≤ k ∧ ¬ 2 ∣ k := by
  induction hleft : n / 2 + 1 - g using Nat.strongRecOn generalizing g with
  | ind left ih =>
      by_cases hover : n / 2 < g
      · exact displays_of_lt hover fun k hk => hk.1
      · have hrest := ih _ (by omega) (g := g + 2) (by omega) (by omega) rfl
        rw [← candidateAfter_of_odd (m := m) hodd] at hrest
        refine (displays_step (by omega) ?_ hrest).congr fun k => ?_
        · rw [candidateAfter_of_odd hodd]
          omega
        · rw [candidateAfter_of_odd hodd]
          omega

def Candidate (k : ℕ) : Prop := k = 2 ∨ k = 4 ∨ k = 6 ∨ 7 ≤ k ∧ ¬ 2 ∣ k

theorem displays_candidates (m : Platform) (n : ℕ) : Displays m n 2 Candidate := by
  have h7 : Displays m n (candidateAfter m 6) fun k => 7 ≤ k ∧ ¬ 2 ∣ k := by
    rw [candidateAfter_six]
    exact displays_odd le_rfl (by decide)
  have h6 : Displays m n (candidateAfter m 4) fun k => k = 6 ∨ 7 ≤ k ∧ ¬ 2 ∣ k := by
    rw [candidateAfter_four]
    exact displays_step (by decide) (by omega) h7
  have h4 : Displays m n (candidateAfter m 2) fun k => k = 4 ∨ k = 6 ∨ 7 ≤ k ∧ ¬ 2 ∣ k := by
    rw [candidateAfter_two]
    exact displays_step (by decide) (by omega) h6
  exact displays_step (by decide) (by omega) h4

/-! ### Where candidates and primes are the same -/

theorem candidate_of_prime (hp : p.Prime) (hsize : p = 2 ∨ 7 ≤ p) : Candidate p := by
  rcases hsize with rfl | hle
  · exact Or.inl rfl
  · exact Or.inr (Or.inr (Or.inr ⟨hle, fun h => not_prime_of_dvd (by decide) h (by omega) hp⟩))

theorem Candidate.of_prime (hcandidate : Candidate p) (hp : p.Prime) : p = 2 ∨ 7 ≤ p := by
  rcases hcandidate with rfl | rfl | rfl | ⟨hle, -⟩
  · exact Or.inl rfl
  · exact absurd hp (by decide)
  · exact absurd hp (by decide)
  · exact Or.inr hle

/-- The divisors of a product of two primes up to its half are these primes. -/
theorem eq_or_eq_of_dvd_mul {q k : ℕ} (hp : p.Prime) (hq : q.Prime) (hdvd : k ∣ p * q)
    (hle : k ≤ p * q / 2) : k = 1 ∨ k = p ∨ k = q := by
  obtain ⟨a, b, ha, hb, rfl⟩ := (Nat.dvd_mul).mp hdvd
  rcases (Nat.dvd_prime hp).mp ha with rfl | rfl <;> rcases (Nat.dvd_prime hq).mp hb with rfl | rfl
  · simp
  · simp
  · simp
  · have hpos := Nat.mul_pos hp.pos hq.pos
    omega

theorem le_half_of_dvd {k : ℕ} (hdvd : k ∣ n) (hlt : k < n) : k ≤ n / 2 := by
  obtain ⟨c, rfl⟩ := hdvd
  have hc : 2 ≤ c := by
    by_contra hc
    have hle := Nat.mul_le_mul_left k (show c ≤ 1 by omega)
    omega
  have hle := Nat.mul_le_mul_left k hc
  omega

/-- The cofactor of the least prime factor has to be a prime if all candidates that divide `n` are
primes and all primes are candidates. -/
theorem factors_of_agree (hn : 2 ≤ n) (hfour : n ≠ 4) (hprime : ¬ n.Prime)
    (hagree : ∀ k, k ∣ n → k ≤ n / 2 → (Candidate k ↔ k.Prime)) :
    ∃ p q, p.Prime ∧ q.Prime ∧ (p = 2 ∨ 7 ≤ p) ∧ 7 ≤ q ∧ n = p * q := by
  have hp := Nat.minFac_prime (show n ≠ 1 by omega)
  obtain ⟨r, hr⟩ := Nat.minFac_dvd n
  have hr1 : r ≠ 1 := fun h => hprime (by rw [hr, h, mul_one]; exact hp)
  have hr0 : 0 < r := Nat.pos_of_ne_zero fun h => by rw [h] at hr; omega
  have hrn : r < n := by
    have := Nat.mul_le_mul_right r hp.two_le
    omega
  have hrdvd : r ∣ n := ⟨n.minFac, hr.trans (mul_comm _ _)⟩
  have hsize : ∀ k, k.Prime → k ∣ n → k = 2 ∨ 7 ≤ k := by
    intro k hk hdvd
    have hne : k ≠ n := fun h => hprime (h ▸ hk)
    have hlt := lt_of_le_of_ne (Nat.le_of_dvd (by omega) hdvd) hne
    exact ((hagree k hdvd (le_half_of_dvd hdvd hlt)).mpr hk).of_prime hk
  have hq := Nat.minFac_prime hr1
  have hqdvd := (Nat.minFac_dvd r).trans hrdvd
  have hnot2 : ¬ 2 ∣ r := by
    intro h2
    have hp2 : n.minFac = 2 :=
      le_antisymm (Nat.minFac_le_of_dvd le_rfl (h2.trans hrdvd)) hp.two_le
    obtain ⟨c, hc⟩ := h2
    have h4 : 4 ∣ n := ⟨c, by rw [hr, hp2, hc]; omega⟩
    have hcandidate : Candidate 4 := Or.inr (Or.inl rfl)
    have hfalse := (hagree 4 h4 (le_half_of_dvd h4 (by omega))).mp hcandidate
    exact absurd hfalse (by decide)
  have hr7 : 7 ≤ r := by
    rcases hsize _ hq hqdvd with h2 | h7
    · exact absurd (h2 ▸ Nat.minFac_dvd r) hnot2
    · exact h7.trans (Nat.minFac_le hr0)
  have hrprime : r.Prime := (hagree r hrdvd (le_half_of_dvd hrdvd hrn)).mp
    (Or.inr (Or.inr (Or.inr ⟨hr7, hnot2⟩)))
  exact ⟨n.minFac, r, hp, hrprime, hsize _ hp (Nat.minFac_dvd n), hr7, hr⟩

theorem agree_iff (hn : 4 ≤ n) :
    (∀ k, k ∣ n → k ≤ n / 2 → (Candidate k ↔ k.Prime)) ↔ n = 4 ∨ n.Prime ∨
      ∃ p q, p.Prime ∧ q.Prime ∧ (p = 2 ∨ 7 ≤ p) ∧ 7 ≤ q ∧ n = p * q := by
  constructor
  · intro hagree
    by_cases hfour : n = 4
    · exact Or.inl hfour
    · by_cases hprime : n.Prime
      · exact Or.inr (Or.inl hprime)
      · exact Or.inr (Or.inr (factors_of_agree (by omega) hfour hprime hagree))
  · have hone : Candidate 1 ↔ Nat.Prime 1 := by simp [Candidate, Nat.not_prime_one]
    rintro (rfl | hprime | ⟨p, q, hp, hq, hsize, hq7, rfl⟩) k hdvd hle
    · have hk : k = 0 ∨ k = 1 ∨ k = 2 := by omega
      rcases hk with rfl | rfl | rfl
      · exact absurd (Nat.eq_zero_of_zero_dvd hdvd) (by decide)
      · exact hone
      · exact iff_of_true (Or.inl rfl) Nat.prime_two
    · rcases (Nat.dvd_prime hprime).mp hdvd with rfl | rfl
      · exact hone
      · omega
    · rcases eq_or_eq_of_dvd_mul hp hq hdvd hle with rfl | rfl | rfl
      · exact hone
      · exact iff_of_true (candidate_of_prime hp hsize) hp
      · exact iff_of_true (candidate_of_prime hq (Or.inr hq7)) hq

theorem displays_primes_iff (hn : 4 ≤ n) : Displays m n 2 Nat.Prime ↔ n = 4 ∨ n.Prime ∨
    ∃ p q, p.Prime ∧ q.Prime ∧ (p = 2 ∨ 7 ≤ p) ∧ 7 ≤ q ∧ n = p * q := by
  rw [← agree_iff hn]
  constructor
  · intro hdisplays k hdvd hle
    exact (displays_candidates m n).iff hdisplays hdvd hle
  · intro hagree
    obtain ⟨bound, shown, ⟨hsorted, hmem⟩, hrun⟩ := displays_candidates m n
    refine ⟨bound, shown, ⟨hsorted, fun k => (hmem k).trans ?_⟩, hrun⟩
    exact and_congr_left fun h => hagree k h.1 h.2

/-- What `next-prime` returns is the least prime above its argument. -/
def FindsNextPrime (m : Platform) (g : ℕ) : Prop :=
  ∃ bound r : ℕ, (∀ fuel ≥ bound, nextPrime m fuel g = .ok r) ∧ IsLeast {q | g < q ∧ q.Prime} r

theorem findsNextPrime_iff_isLeast (hg : 2 ≤ g) :
    FindsNextPrime m g ↔ IsLeast {q | g < q ∧ q.Prime} (candidateAfter m g) := by
  constructor
  · rintro ⟨bound, r, hrun, hleast⟩
    have heq := (hrun (max bound (g + 1)) (Nat.le_max_left _ _)).symm.trans
      (nextPrime_eq hg (Nat.le_max_right bound _))
    obtain rfl : r = candidateAfter m g := Nat.cast_injective (Except.ok.inj heq)
    exact hleast
  · exact fun hleast => ⟨g + 1, _, fun fuel hfuel => nextPrime_eq hg hfuel, hleast⟩

theorem findsNextPrime_iff (hg : 2 ≤ g) : FindsNextPrime m g ↔ g ≠ 2 ∧ g ≠ 4 ∧
    ((g + 1).Prime ∧ m.IsFixnum (g + 1 : ℕ) ∨ ¬ (g + 1).Prime ∧ (g + 2).Prime) := by
  rw [findsNextPrime_iff_isLeast hg, candidateAfter]
  by_cases hprime : (g + 1).Prime
  · have hleast : IsLeast {q | g < q ∧ q.Prime} (g + 1) :=
      ⟨⟨Nat.lt_succ_self g, hprime⟩, fun q hq => hq.1⟩
    have hnot : ¬ IsLeast {q | g < q ∧ q.Prime} (g + 2) := fun h =>
      absurd (h.2 hleast.1) (by omega)
    have hsize : 7 ≤ g + 1 ↔ g ≠ 2 ∧ g ≠ 4 := by
      refine ⟨by omega, fun ⟨h2, h4⟩ => ?_⟩
      by_contra hlt
      have hcases : g = 3 ∨ g = 5 := by omega
      rcases hcases with rfl | rfl <;> exact absurd hprime (by decide)
    by_cases hstep : 7 ≤ g + 1 ∧ m.IsFixnum (g + 1 : ℕ)
    · obtain ⟨h2, h4⟩ := hsize.mp hstep.1
      rw [if_pos ⟨hprime, hstep⟩]
      exact iff_of_true hleast ⟨h2, h4, Or.inl ⟨hprime, hstep.2⟩⟩
    · rw [if_neg fun h => hstep h.2]
      refine iff_of_false hnot ?_
      rintro ⟨h2, h4, ⟨-, hfix⟩ | ⟨hnotPrime, -⟩⟩
      · exact hstep ⟨hsize.mpr ⟨h2, h4⟩, hfix⟩
      · exact hnotPrime hprime
  · have hleast : IsLeast {q | g < q ∧ q.Prime} (g + 2) ↔ (g + 2).Prime := by
      refine ⟨fun h => h.1.2, fun h => ⟨⟨by omega, h⟩, fun q hq => ?_⟩⟩
      by_contra hlt
      have hq1 : q = g + 1 := by
        have := hq.1
        omega
      exact hprime (hq1 ▸ hq.2)
    have h2 : g ≠ 2 := by
      rintro rfl
      exact hprime (by decide)
    have h4 : g ≠ 4 := by
      rintro rfl
      exact hprime (by decide)
    rw [if_neg fun h => hprime h.1, hleast]
    simp [hprime, h2, h4]

/-- The prime divisors up to the half are displayed exactly for 4, for primes, and for products of
two primes that are 2 or from 7 on, not both 2. The next prime is found, but not from 2 and 4, where
it is one of the next two numbers. -/
theorem maxPrimeFactor_iff (m : Platform) (hn : 4 ≤ n) (hg : 2 ≤ g) :
    (Displays m n 2 Nat.Prime ↔ n = 4 ∨ n.Prime ∨
      ∃ p q, p.Prime ∧ q.Prime ∧ (p = 2 ∨ 7 ≤ p) ∧ 7 ≤ q ∧ n = p * q) ∧
    (FindsNextPrime m g ↔ g ≠ 2 ∧ g ≠ 4 ∧
      ((g + 1).Prime ∧ m.IsFixnum (g + 1 : ℕ) ∨ ¬ (g + 1).Prime ∧ (g + 2).Prime)) :=
  ⟨displays_primes_iff hn, findsNextPrime_iff hg⟩

theorem maxPrimeFactor_fourteen :
    (Displays .word64 14 2 Nat.Prime ↔ 14 = 4 ∨ Nat.Prime 14 ∨
      ∃ p q, p.Prime ∧ q.Prime ∧ (p = 2 ∨ 7 ≤ p) ∧ 7 ≤ q ∧ 14 = p * q) ∧
    (FindsNextPrime .word64 5 ↔ 5 ≠ 2 ∧ 5 ≠ 4 ∧
      (Nat.Prime 6 ∧ Platform.word64.IsFixnum (6 : ℕ) ∨ ¬ Nat.Prime 6 ∧ Nat.Prime 7)) :=
  maxPrimeFactor_iff .word64 (by decide) (by decide)

/-- Of the divisors of 9, 3 is not displayed, and of those of 539, 77 is. -/
theorem nine_missed : ¬ Displays .word64 9 2 Nat.Prime ∧ ¬ Displays .word64 539 2 Nat.Prime ∧
    ¬ FindsNextPrime .word64 2 := by
  refine ⟨fun h => ?_, fun h => ?_, fun h => ?_⟩
  · have h3 := ((displays_candidates _ 9).iff h (k := 3) (by decide) (by decide)).mpr (by decide)
    rcases h3 with h3 | h3 | h3 | ⟨h3, -⟩ <;> omega
  · have h77 := ((displays_candidates _ 539).iff h (k := 77) (by decide) (by decide)).mp
      (Or.inr (Or.inr (Or.inr ⟨by decide, by decide⟩)))
    exact not_prime_of_dvd (q := 7) (by decide) (by decide) (by decide) h77
  · have hleast := (findsNextPrime_iff_isLeast (by decide)).mp h
    rw [candidateAfter_two] at hleast
    exact absurd hleast.1.2 (by decide)

end CodeSlices.ProjectEuler.P3
