import Mathlib.Data.List.Induction
import CodeSlices.HexDec.Decode

/-!
# The numbers of the chunks

`main` of `c/hex-dec.c`. What `printf` writes is logged, the numbers apart from the text around
them. The length of the string is kept in an `int`.
-/

namespace CodeSlices.HexDec

open CodeSlices.Logged
open StringFind (CString toInt)

inductive Printed
  | text (s : String)
  | int (n : ℤ)
  deriving DecidableEq

abbrev Run := Logged Printed Fault

def isSpace (c : UInt8) : Bool := c = ' '.toUInt8 || (9 ≤ c && c ≤ 13)

def isDigit (c : UInt8) : Bool := '0'.toUInt8 ≤ c && c ≤ '9'.toUInt8

def decimal (text : List UInt8) : ℤ :=
  (text.takeWhile isDigit).foldl (fun n c => 10 * n + (c.toNat - '0'.toNat : ℕ)) 0

def atoi (s : CString) : Except Fault ℤ :=
  match s.bytes.dropWhile isSpace with
  | [] => .ok 0
  | c :: text =>
      if c = '-'.toUInt8 then int (-decimal text)
      else if c = '+'.toUInt8 then int (decimal text)
      else int (decimal (c :: text))

def divide (a b : ℤ) : Except Fault ℤ :=
  if b = 0 then .error .divideByZero else int (a.tdiv b)

def remainder (a b : ℤ) : Except Fault ℤ := do
  let _ ← divide a b
  return a.tmod b

/-- `xx + size`, which is in the string as often as the loop takes it. -/
def advance (xx : CString) (size : ℤ) : CString :=
  ⟨xx.bytes.drop size.toNat, fun h => xx.noNul (List.mem_of_mem_drop h)⟩

def separator (i : Nat) : Run Unit := if 0 < i then emit (.text ".") else pure ()

/-- The loop over the chunks, with the number of rounds that are left. -/
def chunkLoop (size : ℤ) : Nat → Nat → CString → Run (Nat × CString)
  | 0, i, xx => return (i, xx)
  | rounds + 1, i, xx => do
      separator i
      let n ← btChar2ToByte (some xx) size
      emit (.int n)
      chunkLoop size rounds (i + 1) (advance xx size)

def lastChunk (len size : ℤ) (i : Nat) (xx : CString) : Run Unit := do
  let size ← remainder len size
  if size > 0 then
    separator i
    let n ← btChar2ToByte (some xx) size
    emit (.int n)
    emit (.text ".")
  else
    pure ()

/-- What `main` does with its arguments. -/
def chunks (sizeArg hexArg : CString) : Run Unit := do
  let size ← atoi sizeArg
  let len := toInt hexArg.bytes.length
  let rounds ← divide len size
  let (i, xx) ← chunkLoop size rounds.toNat 0 hexArg
  lastChunk len size i xx
  emit (.text "\n")

def sample (xx : String) (size : ℤ) : Run Unit := do
  let n ← btChar2ToByte (some (.ofBytes (xx.toList.map Char.toUInt8))) size
  emit (.text ("Hex " ++ xx ++ " to dec: "))
  emit (.int n)
  emit (.text "\n")

def main (argv : List CString) : Run ℤ := do
  sample "64" 2
  sample "6F" 2
  sample "1AF" 3
  match argv with
  | _ :: sizeArg :: hexArg :: _ => chunks sizeArg hexArg
  | _ => pure ()
  emit (.text "0B:08:80\n")
  emit (.text "2\n")
  return 0

/-! ### The blocks of a string -/

def IsUpperHex (c : UInt8) : Prop :=
  ('0'.toUInt8 ≤ c ∧ c ≤ '9'.toUInt8) ∨ ('A'.toUInt8 ≤ c ∧ c ≤ 'F'.toUInt8)

instance : DecidablePred IsUpperHex := fun _ => inferInstanceAs (Decidable (_ ∨ _))

/-- The consecutive blocks of `k` characters, and the characters that are left. -/
def blocks (k : Nat) (s : List UInt8) : List (List UInt8) :=
  (List.range (s.length / k)).map (fun i => (s.drop (i * k)).take k) ++
    if s.length % k = 0 then [] else [s.drop (s.length / k * k)]

def numbers (out : List Printed) : List ℤ :=
  out.filterMap fun
    | .text _ => none
    | .int n => some n

def digitText (v : Nat) : UInt8 :=
  UInt8.ofNat (if v < 10 then '0'.toNat + v else 'A'.toNat + (v - 10))

def blockText : Nat → Nat → List UInt8
  | 0, _ => []
  | len + 1, v => blockText len (v / 16) ++ [digitText (v % 16)]

/-- The string that is put together from the length of a block, its own length and the numbers. -/
def recover (k : Nat) : Nat → List ℤ → List UInt8
  | _, [] => []
  | len, n :: ns => blockText (min k len) n.toNat ++ recover k (len - k) ns

/-- What is printed before and after the numbers of the chunks. -/
def banner : List Printed :=
  [.text "Hex 64 to dec: ", .int 100, .text "\n", .text "Hex 6F to dec: ", .int 111, .text "\n",
    .text "Hex 1AF to dec: ", .int 431, .text "\n"]

def footer : List Printed := [.text "0B:08:80\n", .text "2\n"]

/-- `main` prints the values of the blocks, which are the string, and these give it back. -/
def PrintsBlocks (program sizeArg hexArg : CString) (k : Nat) : Prop :=
  ∃ out, Yields (main [program, sizeArg, hexArg]) (banner ++ out ++ footer) 0 ∧
    numbers out = (blocks k hexArg.bytes).map (fun block => (hexValue block : ℤ)) ∧
    (blocks k hexArg.bytes).flatten = hexArg.bytes ∧
    recover k hexArg.bytes.length (numbers out) = hexArg.bytes

variable {s digits : List UInt8} {k : Nat}

theorem blocks_of_le (hk : 0 < k) (hle : k ≤ s.length) :
    blocks k s = s.take k :: blocks k (s.drop k) := by
  have hdiv : s.length / k = (s.length - k) / k + 1 := Nat.div_eq_sub_div hk hle
  have hmod : s.length % k = (s.length - k) % k := Nat.mod_eq_sub_mod hle
  have hshift : ∀ i, (s.drop k).drop (i * k) = s.drop ((i + 1) * k) := by
    intro i
    rw [List.drop_drop, Nat.succ_mul, Nat.add_comm k]
  unfold blocks
  rw [List.length_drop, hdiv, hmod, List.range_succ_eq_map, List.map_cons, List.map_map,
    List.cons_append, Nat.zero_mul, List.drop_zero, hshift]
  refine congrArg (s.take k :: · ++ _) (List.map_congr_left fun i _ => ?_)
  exact congrArg (List.take k) (hshift i).symm

theorem blocks_of_lt (hpos : 0 < s.length) (hlt : s.length < k) : blocks k s = [s] := by
  rw [blocks, Nat.div_eq_of_lt hlt, Nat.mod_eq_of_lt hlt, if_neg hpos.ne']
  simp

theorem blocks_nil (k : Nat) : blocks k [] = [] := by simp [blocks]

/-- A string is empty, or one block that is not whole, or a block and a string. -/
theorem blocks_induction {motive : List UInt8 → Prop} (hk : 0 < k) (hnil : motive [])
    (hshort : ∀ s, 0 < s.length → s.length < k → motive s)
    (hblock : ∀ s, k ≤ s.length → motive (s.drop k) → motive s) (s : List UInt8) : motive s := by
  induction hlen : s.length using Nat.strongRecOn generalizing s with
  | ind len ih =>
      by_cases hle : k ≤ s.length
      · exact hblock s hle (ih _ (by rw [List.length_drop]; omega) (s.drop k) rfl)
      · rcases Nat.eq_zero_or_pos s.length with hzero | hpos
        · rwa [List.length_eq_zero_iff.mp hzero]
        · exact hshort s hpos (Nat.lt_of_not_le hle)

theorem flatten_blocks (hk : 0 < k) (s : List UInt8) : (blocks k s).flatten = s := by
  induction s using blocks_induction hk with
  | hnil => rw [blocks_nil, List.flatten_nil]
  | hshort s hpos hlt => rw [blocks_of_lt hpos hlt, List.flatten_singleton]
  | hblock s hle ih => rw [blocks_of_le hk hle, List.flatten_cons, ih, List.take_append_drop]

/-! ### The digits of a block -/

theorem upperHex_spec {c : UInt8} (hc : IsUpperHex c) :
    isHexChar c ∧ ¬ IsLower c ∧ digitText (digitValue c) = c :=
  forall_uint8 (P := fun c => IsUpperHex c → isHexChar c ∧ ¬ IsLower c ∧
    digitText (digitValue c) = c) (by decide +kernel) c hc

theorem hexValue_concat (digits : List UInt8) (d : UInt8) :
    hexValue (digits ++ [d]) = digitValue d + 16 * hexValue digits := by
  rw [hexValue, List.reverse_append, List.reverse_singleton, List.singleton_append, List.map_cons,
    Nat.ofDigits_cons, hexValue]

theorem hexValue_lt (hupper : ∀ d ∈ digits, IsUpperHex d) :
    hexValue digits < 16 ^ digits.length := by
  have hlt : ∀ v ∈ digits.reverse.map digitValue, v < 16 := by
    intro v hv
    obtain ⟨d, hd, rfl⟩ := List.mem_map.mp hv
    exact digitValue_lt (upperHex_spec (hupper d (List.mem_reverse.mp hd))).1
  have hbound := Nat.ofDigits_lt_base_pow_length (by decide : 1 < 16) hlt
  rwa [List.length_map, List.length_reverse] at hbound

theorem blockText_hexValue (digits : List UInt8) (hupper : ∀ d ∈ digits, IsUpperHex d) :
    blockText digits.length (hexValue digits) = digits := by
  induction digits using List.reverseRecOn with
  | nil => rfl
  | append_singleton digits d ih =>
      obtain ⟨hdigits, hd⟩ := List.forall_mem_append.mp hupper
      have hspec := upperHex_spec (hd d (List.mem_singleton_self d))
      have hlt := digitValue_lt hspec.1
      rw [List.length_append, List.length_singleton, blockText, hexValue_concat,
        Nat.add_mul_mod_self_left, Nat.mod_eq_of_lt hlt, hspec.2.2,
        Nat.add_mul_div_left _ _ (by decide), Nat.div_eq_of_lt hlt, Nat.zero_add, ih hdigits]

theorem recover_blocks (hk : 0 < k) (hupper : ∀ d ∈ s, IsUpperHex d) :
    recover k s.length ((blocks k s).map fun block => (hexValue block : ℤ)) = s := by
  induction s using blocks_induction hk with
  | hnil => rw [blocks_nil, List.map_nil, recover]
  | hshort s hpos hlt =>
      rw [blocks_of_lt hpos hlt, List.map_singleton, recover, recover, Nat.min_eq_right hlt.le,
        Int.toNat_natCast, blockText_hexValue _ hupper, List.append_nil]
  | hblock s hle ih =>
      have htake : blockText k (hexValue (s.take k)) = s.take k := by
        have htext := blockText_hexValue (s.take k)
          fun d hd => hupper d (List.mem_of_mem_take hd)
        rwa [List.length_take_of_le hle] at htext
      have hdrop := ih fun d hd => hupper d (List.mem_of_mem_drop hd)
      rw [List.length_drop] at hdrop
      rw [blocks_of_le hk hle, List.map_cons, recover, Nat.min_eq_left hle, Int.toNat_natCast,
        htake, hdrop, List.take_append_drop]

/-! ### The runs -/

variable {xx sizeArg hexArg program : CString} {size i rounds : Nat} {z : ℤ}

theorem toShort_of_lt (hlow : 0 ≤ z) (hhigh : z < 2 ^ 15) : toShort z = z :=
  Int.bmod_eq_of_le (by omega) (by omega)

theorem btChar2ToByte_of_upper (hsize : size ≤ 3) (hle : size ≤ xx.bytes.length)
    (hupper : ∀ d ∈ xx.bytes, IsUpperHex d) :
    btChar2ToByte (some xx) size = .ok (hexValue (xx.bytes.take size) : ℤ) := by
  have hdigits : ∀ d ∈ xx.bytes.take size, IsUpperHex d := fun d hd =>
    hupper d (List.mem_of_mem_take hd)
  have hvalue : takenValue (xx.bytes.take size) = hexValue (xx.bytes.take size) := by
    refine congrArg _ (List.map_congr_left fun d hd => ?_)
    have hspec := upperHex_spec (hdigits d (List.mem_reverse.mp hd))
    exact (hexCharToDec_upcase_eq_iff hspec.1).mpr hspec.2.1
  have hlt := hexValue_lt hdigits
  rw [List.length_take_of_le hle] at hlt
  have hpow : 16 ^ size ≤ 16 ^ 3 := Nat.pow_le_pow_right (by decide) hsize
  rw [btChar2ToByte_eq hle, if_pos (by omega), hvalue, toShort_of_lt (by omega) (by omega)]

theorem numbers_append (out out' : List Printed) :
    numbers (out ++ out') = numbers out ++ numbers out' := List.filterMap_append

/-- The run prints the numbers, with text around them, and returns the value. -/
def Prints {α : Type} (run : Run α) (ns : List ℤ) (a : α) : Prop :=
  ∃ out, Yields run out a ∧ numbers out = ns

theorem Prints.bind {α β : Type} {run : Run α} {next : α → Run β} {ns ns' : List ℤ} {a : α} {b : β}
    (hrun : Prints run ns a) (hnext : Prints (next a) ns' b) :
    Prints (run >>= next) (ns ++ ns') b := by
  obtain ⟨out, hout, rfl⟩ := hrun
  obtain ⟨out', hout', rfl⟩ := hnext
  exact ⟨out ++ out', hout.bind hout', numbers_append out out'⟩

theorem prints_pure {α : Type} (a : α) : Prints (pure a) [] a := ⟨[], Yields.pure a, rfl⟩

theorem prints_lift {α : Type} {x : Except Fault α} {a : α} (hx : x = .ok a) :
    Prints (liftM x) [] a := ⟨[], Yields.lift hx, rfl⟩

theorem prints_text (text : String) : Prints (emit (.text text)) [] () :=
  ⟨[.text text], Yields.emit _, rfl⟩

theorem prints_int (n : ℤ) : Prints (emit (.int n)) [n] () := ⟨[.int n], Yields.emit _, rfl⟩

theorem prints_separator (i : Nat) : Prints (separator i) [] () := by
  unfold separator
  split
  · exact prints_text _
  · exact prints_pure ()

/-- One number, with the separator before it. -/
theorem prints_number {α : Type} {next : Run α} {ns : List ℤ} {a : α} (i size : Nat)
    (hsize : size ≤ 3) (hle : size ≤ xx.bytes.length) (hupper : ∀ d ∈ xx.bytes, IsUpperHex d)
    (hnext : Prints next ns a) :
    Prints (separator i >>= fun _ => liftM (btChar2ToByte (some xx) size) >>= fun n =>
      emit (.int n) >>= fun _ => next) (hexValue (xx.bytes.take size) :: ns) a :=
  (prints_separator i).bind ((prints_lift (btChar2ToByte_of_upper hsize hle hupper)).bind
    ((prints_int _).bind hnext))

theorem advance_bytes (xx : CString) (size : Nat) :
    (advance xx size).bytes = xx.bytes.drop size := rfl

theorem prints_chunkLoop (i rounds : Nat) (xx : CString) (hk : k ≤ 3)
    (hle : rounds * k ≤ xx.bytes.length) (hupper : ∀ d ∈ xx.bytes, IsUpperHex d) :
    Prints (chunkLoop k rounds i xx)
      ((List.range rounds).map fun j => (hexValue ((xx.bytes.drop (j * k)).take k) : ℤ))
      (i + rounds, advance xx (rounds * k : Nat)) := by
  induction rounds generalizing i xx with
  | zero =>
      rw [Nat.zero_mul]
      exact prints_pure _
  | succ rounds ih =>
      rw [Nat.succ_mul] at hle
      have hrest := ih (i + 1) (advance xx k)
        (by rw [advance_bytes, List.length_drop]; omega)
        fun d hd => hupper d (List.mem_of_mem_drop hd)
      have hend : advance (advance xx k) (rounds * k : Nat) =
          advance xx ((rounds + 1) * k : Nat) := by
        have hdrop : (xx.bytes.drop k).drop (rounds * k) = xx.bytes.drop ((rounds + 1) * k) := by
          rw [List.drop_drop, Nat.succ_mul, Nat.add_comm k]
        simp only [advance, Int.toNat_natCast, hdrop]
      have hshift : ∀ j, (advance xx k).bytes.drop (j * k) = xx.bytes.drop ((j + 1) * k) := by
        intro j
        rw [advance_bytes, List.drop_drop, Nat.succ_mul, Nat.add_comm k]
      have hround := prints_number i k hk (by omega) hupper hrest
      rw [hend, Nat.add_right_comm, Nat.add_assoc] at hround
      rw [List.range_succ_eq_map, List.map_cons, List.map_map, Nat.zero_mul, List.drop_zero]
      simp only [hshift] at hround
      exact hround

theorem divide_natCast {len : Nat} (hk : 0 < k) (hlen : len < 2 ^ 31) :
    divide len k = .ok ((len / k : Nat) : ℤ) := by
  have hle := Nat.div_le_self len k
  have hnonneg : (0 : ℤ) ≤ (len / k : Nat) := Int.natCast_nonneg _
  rw [divide, if_neg (by omega), ← Int.ofNat_tdiv]
  exact int_ok (by omega) (by omega)

theorem remainder_natCast {len : Nat} (hk : 0 < k) (hlen : len < 2 ^ 31) :
    remainder len k = .ok ((len % k : Nat) : ℤ) := by
  rw [remainder, divide_natCast hk hlen, Int.ofNat_tmod]
  rfl

theorem prints_lastChunk {len : Nat} (hpos : 0 < k) (hk : k ≤ 3) (hlen : len < 2 ^ 31)
    (hrest : xx.bytes.length = len % k) (hupper : ∀ d ∈ xx.bytes, IsUpperHex d) :
    Prints (lastChunk len k i xx) (if len % k = 0 then [] else [(hexValue xx.bytes : ℤ)]) () := by
  have hmod := Nat.mod_lt len hpos
  have hsize := prints_lift (remainder_natCast hpos hlen)
  by_cases hzero : len % k = 0
  · rw [if_pos hzero]
    refine hsize.bind ?_
    rw [if_neg (by omega)]
    exact prints_pure ()
  · have hnumber := prints_number i (len % k) (by omega) hrest.ge hupper
      (prints_text ".")
    rw [← hrest, List.take_length, hrest] at hnumber
    rw [if_neg hzero]
    refine hsize.bind ?_
    rw [if_pos (by omega)]
    exact hnumber

theorem prints_chunks (hsize : atoi sizeArg = .ok (k : ℤ)) (hpos : 0 < k) (hk : k ≤ 3)
    (hlen : hexArg.bytes.length < 2 ^ 31) (hupper : ∀ d ∈ hexArg.bytes, IsUpperHex d) :
    Prints (chunks sizeArg hexArg)
      ((blocks k hexArg.bytes).map fun block => (hexValue block : ℤ)) () := by
  have hdiv := Nat.div_add_mod' hexArg.bytes.length k
  have hrounds : divide (StringFind.toInt hexArg.bytes.length) k =
      .ok ((hexArg.bytes.length / k : Nat) : ℤ) := by
    rw [StringFind.toInt_of_lt hlen]
    exact divide_natCast hpos hlen
  have hloop := prints_chunkLoop 0 (hexArg.bytes.length / k) hexArg hk (by omega) hupper
  have hrest : (advance hexArg (hexArg.bytes.length / k * k : Nat)).bytes.length =
      hexArg.bytes.length % k := by
    rw [advance_bytes, List.length_drop]
    omega
  have hlast := prints_lastChunk (i := 0 + hexArg.bytes.length / k) hpos hk hlen hrest
    fun d hd => hupper d (List.mem_of_mem_drop hd)
  have hvalues : (blocks k hexArg.bytes).map (fun block => (hexValue block : ℤ)) =
      [] ++ ([] ++ (((List.range (hexArg.bytes.length / k)).map fun j =>
        (hexValue ((hexArg.bytes.drop (j * k)).take k) : ℤ)) ++
      ((if hexArg.bytes.length % k = 0 then [] else
        [(hexValue (advance hexArg (hexArg.bytes.length / k * k : Nat)).bytes : ℤ)]) ++ []))) := by
    rw [blocks, List.map_append, List.map_map, List.nil_append, List.nil_append, List.append_nil,
      apply_ite (List.map _), List.map_nil, List.map_singleton]
    rfl
  rw [hvalues]
  rw [← Int.toNat_natCast (hexArg.bytes.length / k)] at hloop
  rw [← StringFind.toInt_of_lt hlen] at hlast
  refine (prints_lift hsize).bind ((prints_lift hrounds).bind ?_)
  exact hloop.bind (hlast.bind (prints_text "\n"))

theorem yields_sample {text : String} {n : ℤ}
    (hn : btChar2ToByte (some (.ofBytes (text.toList.map Char.toUInt8))) z = .ok n) :
    Yields (sample text z) [.text ("Hex " ++ text ++ " to dec: "), .int n, .text "\n"] () :=
  (Yields.lift hn).bind ((Yields.emit _).bind ((Yields.emit _).bind (Yields.emit _)))

/-- Around what it prints for its arguments, `main` prints the same every time. -/
theorem yields_main {out : List Printed} (hchunks : Yields (chunks sizeArg hexArg) out ()) :
    Yields (main [program, sizeArg, hexArg]) (banner ++ out ++ footer) 0 := by
  have h64 : Yields (sample "64" 2) (banner.take 3) () := yields_sample (by decide)
  have h6F : Yields (sample "6F" 2) ((banner.drop 3).take 3) () := yields_sample (by decide)
  have h1AF : Yields (sample "1AF" 3) (banner.drop 6) () := yields_sample (by decide)
  have hend : Yields (emit (.text "0B:08:80\n") >>= fun _ => emit (.text "2\n") >>= fun _ =>
      pure 0 : Run ℤ) footer 0 := (Yields.emit _).bind ((Yields.emit _).bind (Yields.pure 0))
  have hlog : banner ++ out ++ footer =
      banner.take 3 ++ ((banner.drop 3).take 3 ++ (banner.drop 6 ++ (out ++ footer))) := by
    rw [List.append_assoc]
    rfl
  rw [hlog]
  exact h64.bind (h6F.bind (h1AF.bind (hchunks.bind hend)))

/-- With chunks of one to three digits the numbers are those of the blocks. -/
theorem main_printsBlocks (program : CString) (hsize : atoi sizeArg = .ok (k : ℤ)) (hpos : 1 ≤ k)
    (hk : k ≤ 3) (hlen : hexArg.bytes.length < 2 ^ 31) (hupper : ∀ d ∈ hexArg.bytes, IsUpperHex d) :
    PrintsBlocks program sizeArg hexArg k := by
  obtain ⟨out, hout, hnumbers⟩ := prints_chunks hsize hpos hk hlen hupper
  refine ⟨out, yields_main hout, hnumbers, flatten_blocks hpos _, ?_⟩
  rw [hnumbers]
  exact recover_blocks hpos hupper

theorem main_printsBlocks_oneAF :
    PrintsBlocks ⟨['h'.toUInt8], by decide⟩ ⟨['2'.toUInt8], by decide⟩ oneAF 2 :=
  main_printsBlocks _ (by decide) (by decide) (by decide) (by decide) (by decide +kernel)

/-- The length `2 ^ 31` is negative as an `int`, and no chunk is printed. -/
theorem yields_chunks_of_length (hsize : atoi sizeArg = .ok 1)
    (hlen : hexArg.bytes.length = 2 ^ 31) :
    Yields (chunks sizeArg hexArg) [.text "\n"] () := by
  have hneg : StringFind.toInt hexArg.bytes.length = -2 ^ 31 := by
    rw [hlen]
    decide
  have hrounds : divide (StringFind.toInt hexArg.bytes.length) 1 = .ok (-2 ^ 31) := by
    rw [hneg]
    decide
  have hlast : Yields (lastChunk (StringFind.toInt hexArg.bytes.length) 1 0 hexArg) [] () := by
    have hrest : remainder (-2 ^ 31) 1 = .ok 0 := by decide
    rw [hneg]
    exact (Yields.lift hrest).bind (Yields.pure ())
  exact (Yields.lift hsize).bind ((Yields.lift hrounds).bind
    ((Yields.pure (0, hexArg)).bind (hlast.bind (Yields.emit _))))

theorem not_printsBlocks_of_length (hsize : atoi sizeArg = .ok 1)
    (hlen : hexArg.bytes.length = 2 ^ 31) : ¬ PrintsBlocks program sizeArg hexArg 1 := by
  rintro ⟨out, hrun, hnumbers, hflatten, -⟩
  have hlog := hrun.unique_log (yields_main (yields_chunks_of_length hsize hlen))
  obtain rfl : out = [.text "\n"] :=
    List.append_cancel_left (List.append_cancel_right hlog)
  have hnone : blocks 1 hexArg.bytes = [] := List.map_eq_nil_iff.mp hnumbers.symm
  rw [hnone, List.flatten_nil] at hflatten
  rw [← hflatten] at hlen
  cases hlen

def longZeros : CString :=
  ⟨List.replicate (2 ^ 31) '0'.toUInt8, fun h => absurd (List.eq_of_mem_replicate h) (by decide)⟩

theorem longZeros_not_printed :
    ¬ PrintsBlocks ⟨['h'.toUInt8], by decide⟩ ⟨['1'.toUInt8], by decide⟩ longZeros 1 :=
  not_printsBlocks_of_length (by decide) List.length_replicate

end CodeSlices.HexDec
