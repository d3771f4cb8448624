import Mathlib.Tactic.Common
import Mathlib.Data.List.Nodup
import Mathlib.Data.List.Perm.Subperm

/-! # Fixed-size buffers and element copies

A buffer is a list; `write` overwrites a range in place and `slice` reads one.
`place` states what a buffer holds once every key of a list has put its block
of `w` values at `off key * w` and everything else is the filler. Copying block
after block produces it (`foldl_write_eq_place`), and so does appending the
blocks when their positions enumerate the buffer (`place_eq_flatMap`). -/
namespace Buffer
variable {α κ : Type}

def slice (buf : List α) (off len : Nat) : List α := (buf.drop off).take len

def write (buf : List α) (off : Nat) (xs : List α) : List α :=
  buf.take off ++ xs ++ buf.drop (off + xs.length)

theorem length_slice {buf : List α} {off len : Nat} (h : off + len ≤ buf.length) :
    (slice buf off len).length = len := by
  simp [slice]; omega

theorem getElem?_slice (buf : List α) (off len i : Nat) :
    (slice buf off len)[i]? = if i < len then buf[off + i]? else none := by
  simp [slice, List.getElem?_take, List.getElem?_drop]

theorem slice_slice (buf : List α) (off len off' len' : Nat) (h : off' + len' ≤ len) :
    slice (slice buf off len) off' len' = slice buf (off + off') len' := by
  apply List.ext_getElem?
  intro i
  simp only [getElem?_slice]
  split
  · rw [if_pos (by omega), Nat.add_assoc]
  · rfl

theorem slice_append (buf : List α) (off len more : Nat) :
    slice buf off len ++ slice buf (off + len) more = slice buf off (len + more) := by
  simp [slice, List.take_add, List.drop_drop]

theorem length_write {buf xs : List α} {off : Nat} (h : off + xs.length ≤ buf.length) :
    (write buf off xs).length = buf.length := by
  simp [write]; omega

theorem getElem?_write {buf xs : List α} {off : Nat} (h : off + xs.length ≤ buf.length) (i : Nat) :
    (write buf off xs)[i]? = if off ≤ i ∧ i < off + xs.length then xs[i - off]? else buf[i]? := by
  have hlen : (buf.take off).length = off := by simp; omega
  unfold write
  rcases Nat.lt_or_ge i off with hlt | hge
  · rw [if_neg (by omega), List.append_assoc, List.getElem?_append_left (by omega),
      List.getElem?_take, if_pos hlt]
  · rw [List.append_assoc, List.getElem?_append_right (by omega), hlen]
    rcases Nat.lt_or_ge i (off + xs.length) with hi | hi
    · rw [if_pos ⟨hge, hi⟩, List.getElem?_append_left (by omega)]
    · rw [if_neg (by omega), List.getElem?_append_right (by omega), List.getElem?_drop]
      congr 1; omega

/-- Writing right behind a finished part of the buffer extends it. -/
theorem write_append (pre rest xs : List α) :
    write (pre ++ rest) pre.length xs = pre ++ xs ++ rest.drop xs.length := by
  simp [write, List.drop_append]

/-! ## Placing blocks -/

/-- The first key whose block of `w` values at `off key * w` covers position `i`. -/
def cover (w : Nat) (off : κ → Nat) (cs : List κ) (i : Nat) : Option κ :=
  cs.find? fun c => off c * w ≤ i ∧ i < off c * w + w

/-- The buffer of `n` values in which every key's block stands at its place and
every other position holds `zero`. -/
def place (n w : Nat) (cs : List κ) (off : κ → Nat) (val : κ → List α) (zero : α) : List α :=
  (List.range n).map fun i => match cover w off cs i with
    | some c => (val c).getD (i - off c * w) zero
    | none => zero

@[simp] theorem length_place (n w : Nat) (cs : List κ) (off : κ → Nat) (val : κ → List α)
    (zero : α) : (place n w cs off val zero).length = n := by simp [place]

theorem cover_unique {w : Nat} {off : κ → Nat} {cs : List κ} {i : Nat} {c c' : κ}
    (hn : (cs.map off).Nodup) (hc : c ∈ cs) (hc' : c' ∈ cs)
    (hi : off c * w ≤ i ∧ i < off c * w + w) (hi' : off c' * w ≤ i ∧ i < off c' * w + w) :
    c = c' := by
  apply List.inj_on_of_nodup_map hn hc hc'
  rcases Nat.lt_trichotomy (off c) (off c') with h | h | h
  · have := Nat.mul_le_mul_right w (Nat.succ_le_of_lt h)
    rw [Nat.succ_mul] at this
    omega
  · exact h
  · have := Nat.mul_le_mul_right w (Nat.succ_le_of_lt h)
    rw [Nat.succ_mul] at this
    omega

theorem cover_eq_some {w : Nat} {off : κ → Nat} {cs : List κ} {i : Nat} {c : κ}
    (hn : (cs.map off).Nodup) :
    cover w off cs i = some c ↔ c ∈ cs ∧ off c * w ≤ i ∧ i < off c * w + w := by
  unfold cover
  constructor
  · intro h
    exact ⟨List.mem_of_find?_eq_some h, by simpa using List.find?_some h⟩
  · rintro ⟨hm, hi⟩
    cases hf : cs.find? fun c => off c * w ≤ i ∧ i < off c * w + w with
    | none => exact absurd hi (by simpa using List.find?_eq_none.mp hf c hm)
    | some c' =>
      rw [cover_unique hn hm (List.mem_of_find?_eq_some hf) hi (by simpa using List.find?_some hf)]

/-- Two ways to place blocks agree when they agree on every key. -/
theorem place_congr {n w : Nat} {cs : List κ} {off : κ → Nat} {val val' : κ → List α} {zero : α}
    (h : ∀ c ∈ cs, val c = val' c) : place n w cs off val zero = place n w cs off val' zero := by
  apply List.map_congr_left
  intro i _
  cases hf : cover w off cs i with
  | none => rfl
  | some c => simp only [h c (List.mem_of_find?_eq_some hf)]

/-- What stands at a key's place is its block. -/
theorem slice_place {n w : Nat} {cs : List κ} {off : κ → Nat} {val : κ → List α} {zero : α} {c : κ}
    (hn : (cs.map off).Nodup) (hc : c ∈ cs) (hl : (val c).length = w) (hb : off c * w + w ≤ n) :
    slice (place n w cs off val zero) (off c * w) w = val c := by
  apply List.ext_getElem?
  intro i
  rw [getElem?_slice]
  split
  · next hi =>
    have hcov : cover w off cs (off c * w + i) = some c :=
      (cover_eq_some hn).mpr ⟨hc, by omega, by omega⟩
    simp only [place, List.getElem?_map, List.getElem?_range (show off c * w + i < n by omega),
      Option.map_some, hcov]
    simp [List.getElem?_eq_getElem (show i < (val c).length by omega)]
  · next hi => rw [List.getElem?_eq_none (by omega)]

theorem foldl_write_getElem? {w : Nat} {off : κ → Nat} {val : κ → List α} :
    ∀ (cs : List κ) (buf : List α), (cs.map off).Nodup →
      (∀ c ∈ cs, (val c).length = w) → (∀ c ∈ cs, off c * w + w ≤ buf.length) → ∀ i,
      (cs.foldl (fun b c => write b (off c * w) (val c)) buf)[i]? =
        match cover w off cs i with
        | some c => (val c)[i - off c * w]?
        | none => buf[i]?
  | [], buf, _, _, _, i => rfl
  | c :: cs, buf, hn, hl, hb, i => by
    have hcl := hl c (List.mem_cons_self ..)
    have hcb := hb c (List.mem_cons_self ..)
    have hfit : off c * w + (val c).length ≤ buf.length := by omega
    have hn' : (cs.map off).Nodup := (List.nodup_cons.mp hn).2
    rw [List.foldl_cons, foldl_write_getElem? cs _ hn'
      (fun x hx => hl x (List.mem_cons_of_mem _ hx))
      (fun x hx => by rw [length_write hfit]; exact hb x (List.mem_cons_of_mem _ hx))]
    cases hf : cover w off cs i with
    | some c' =>
      obtain ⟨hm, hi⟩ := (cover_eq_some hn').mp hf
      rw [(cover_eq_some hn).mpr ⟨List.mem_cons_of_mem _ hm, hi⟩]
    | none =>
      simp only [getElem?_write hfit, hcl]
      by_cases hi : off c * w ≤ i ∧ i < off c * w + w
      · rw [if_pos hi, (cover_eq_some hn).mpr ⟨List.mem_cons_self .., hi⟩]
      · rw [if_neg hi]
        have : cover w off (c :: cs) i = none := by
          unfold cover at hf ⊢
          rw [List.find?_cons_of_neg (by simpa using hi)]
          exact hf
        rw [this]

/-- Copying block after block into a cleared buffer places the blocks. -/
theorem foldl_write_eq_place {n w : Nat} {cs : List κ} {off : κ → Nat} {val : κ → List α}
    {zero : α} (hn : (cs.map off).Nodup) (hl : ∀ c ∈ cs, (val c).length = w)
    (hb : ∀ c ∈ cs, off c * w + w ≤ n) :
    cs.foldl (fun b c => write b (off c * w) (val c)) (List.replicate n zero) =
      place n w cs off val zero := by
  apply List.ext_getElem?
  intro i
  rw [foldl_write_getElem? cs _ hn hl (by simpa using hb)]
  simp only [place, List.getElem?_map, List.getElem?_replicate]
  rcases Nat.lt_or_ge i n with hi | hi
  · rw [List.getElem?_range hi, if_pos hi, Option.map_some]
    cases hf : cover w off cs i with
    | none => rfl
    | some c =>
      obtain ⟨hm, hc⟩ := (cover_eq_some hn).mp hf
      simp [List.getElem?_eq_getElem (show i - off c * w < (val c).length by
        have := hl c hm; omega)]
  · rw [List.getElem?_eq_none (by simpa using hi), if_neg (by omega)]
    cases hf : cover w off cs i with
    | none => rfl
    | some c =>
      obtain ⟨hm, hc⟩ := (cover_eq_some hn).mp hf
      have := hb c hm
      omega

/-! ## Blocks in a row -/

theorem length_flatMap_uniform {w : Nat} {f : κ → List α} :
    ∀ {xs : List κ}, (∀ x ∈ xs, (f x).length = w) → (xs.flatMap f).length = xs.length * w
  | [], _ => by simp
  | x :: xs, h => by
    rw [List.flatMap_cons, List.length_append, h x (List.mem_cons_self ..),
      length_flatMap_uniform (fun y hy => h y (List.mem_cons_of_mem _ hy)), List.length_cons,
      Nat.succ_mul]
    omega

/-- Writing block `k` behind blocks `0` to `k - 1`. -/
theorem write_block {w k : Nat} {f : Nat → List α} (buf : List α)
    (h : ∀ i < k + 1, (f i).length = w) :
    write ((List.range k).flatMap f ++ buf.drop (k * w)) (k * w) (f k) =
      (List.range (k + 1)).flatMap f ++ buf.drop ((k + 1) * w) := by
  have hpre : ((List.range k).flatMap f).length = k * w := by
    rw [length_flatMap_uniform (w := w), List.length_range]
    exact fun i hi => h i (by have := List.mem_range.mp hi; omega)
  have := write_append ((List.range k).flatMap f) (buf.drop (k * w)) (f k)
  rw [hpre] at this
  rw [this, h k (by omega), List.drop_drop, List.range_succ, List.flatMap_append, Nat.succ_mul]
  simp

/-- Block `i` of a list of equally long blocks. -/
theorem slice_flatMap {w : Nat} {f : κ → List α} :
    ∀ {xs : List κ} {i : Nat} {x : κ}, (∀ x ∈ xs, (f x).length = w) → xs[i]? = some x →
      slice (xs.flatMap f) (i * w) w = f x
  | [], _, _, _, hx => by simp at hx
  | y :: ys, 0, x, h, hx => by
    simp only [List.getElem?_cons_zero, Option.some.injEq] at hx
    subst hx
    simp [slice, ← h y (List.mem_cons_self ..)]
  | y :: ys, i + 1, x, h, hx => by
    have ih := slice_flatMap (fun z (hz : z ∈ ys) => h z (List.mem_cons_of_mem _ hz))
      (by simpa using hx)
    have hy := h y (List.mem_cons_self ..)
    rw [← ih, slice, slice, List.flatMap_cons, Nat.succ_mul, Nat.add_comm, ← List.drop_drop,
      ← hy, List.drop_left]

theorem getElem?_flatMap_uniform {w : Nat} (hw : 0 < w) {f : κ → List α} {xs : List κ}
    (h : ∀ x ∈ xs, (f x).length = w) (i : Nat) :
    (xs.flatMap f)[i]? = (xs[i / w]?).bind fun x => (f x)[i % w]? := by
  have hi : i = i / w * w + i % w := (Nat.div_add_mod' i w).symm
  cases hx : xs[i / w]? with
  | none =>
    have hlen : xs.length ≤ i / w := List.getElem?_eq_none_iff.mp hx
    rw [List.getElem?_eq_none]
    · rfl
    · rw [length_flatMap_uniform h]
      have := Nat.mul_le_mul_right w hlen
      omega
  | some x =>
    have hs := slice_flatMap h hx
    have := congrArg (fun l => l[i % w]?) hs
    simp only [getElem?_slice, Nat.mod_lt i hw, if_true] at this
    rw [Option.bind_some, ← this, ← hi]

/-- When the positions of the keys count up from zero, placing the blocks and
appending them give the same buffer. -/
theorem place_eq_flatMap {m w : Nat} (hw : 0 < w) {cs : List κ} {off : κ → Nat}
    {val : κ → List α} {zero : α} (ho : cs.map off = List.range m)
    (hl : ∀ c ∈ cs, (val c).length = w) :
    place (m * w) w cs off val zero = cs.flatMap val := by
  have hn : (cs.map off).Nodup := by rw [ho]; exact List.nodup_range
  have hcs : cs.length = m := by simpa using congrArg List.length ho
  apply List.ext_getElem?
  intro i
  rw [getElem?_flatMap_uniform hw hl]
  simp only [place, List.getElem?_map]
  rcases Nat.lt_or_ge i (m * w) with hi | hi
  · have hdiv : i / w < m := (Nat.div_lt_iff_lt_mul hw).mpr hi
    have hx : i / w < cs.length := by omega
    have hoff : off cs[i / w] = i / w := by
      have := congrArg (fun l => l[i / w]?) ho
      simpa [List.getElem?_eq_getElem hx, List.getElem?_range hdiv] using this
    have hi' : i = i / w * w + i % w := (Nat.div_add_mod' i w).symm
    have hmod := Nat.mod_lt i hw
    have hcov : cover w off cs i = some cs[i / w] :=
      (cover_eq_some hn).mpr ⟨List.getElem_mem _, by rw [hoff]; omega, by rw [hoff]; omega⟩
    have hval := hl cs[i / w] (List.getElem_mem _)
    rw [List.getElem?_range hi, Option.map_some, hcov, List.getElem?_eq_getElem hx,
      Option.bind_some]
    simp only [hoff, show i - i / w * w = i % w by omega]
    simp [List.getElem?_eq_getElem (show i % w < (val cs[i / w]).length by omega)]
  · have hge : m ≤ i / w := (Nat.le_div_iff_mul_le hw).mpr hi
    rw [List.getElem?_eq_none (by simpa using hi), List.getElem?_eq_none (by omega)]
    rfl

/-- Distinct positions below `m`, as many as there are, are all of them. -/
theorem exists_position {m : Nat} {cs : List κ} {off : κ → Nat} (hn : (cs.map off).Nodup)
    (hlt : ∀ c ∈ cs, off c < m) (hlen : cs.length = m) {j : Nat} (hj : j < m) :
    ∃ c ∈ cs, off c = j := by
  have hsub : cs.map off ⊆ List.range m := by
    intro x hx
    obtain ⟨c, hc, rfl⟩ := List.mem_map.mp hx
    exact List.mem_range.mpr (hlt c hc)
  have hp := (List.subperm_of_subset hn hsub).perm_of_length_le (by simp [hlen])
  exact List.mem_map.mp (hp.mem_iff.mpr (List.mem_range.mpr hj))

/-- A buffer whose blocks are known and fill it is determined. -/
theorem eq_place {m w : Nat} (hw : 0 < w) {cs : List κ} {off : κ → Nat} {val : κ → List α}
    {zero : α} {buf : List α} (hn : (cs.map off).Nodup) (hlt : ∀ c ∈ cs, off c < m)
    (hlen : cs.length = m) (hb : buf.length = m * w)
    (hs : ∀ c ∈ cs, slice buf (off c * w) w = val c) :
    buf = place (m * w) w cs off val zero := by
  apply List.ext_getElem?
  intro i
  rcases Nat.lt_or_ge i (m * w) with hi | hi
  · have hmod := Nat.mod_lt i hw
    have hi' : i = i / w * w + i % w := (Nat.div_add_mod' i w).symm
    obtain ⟨c, hc, hoff⟩ := exists_position hn hlt hlen ((Nat.div_lt_iff_lt_mul hw).mpr hi)
    have hcov : cover w off cs i = some c :=
      (cover_eq_some hn).mpr ⟨hc, by rw [hoff]; omega, by rw [hoff]; omega⟩
    have hval : buf[i]? = (val c)[i % w]? := by
      rw [← hs c hc, getElem?_slice, if_pos hmod, hoff, ← hi']
    have hsome : buf[i]? = some buf[i] := List.getElem?_eq_getElem (by omega)
    simp only [place, List.getElem?_map, List.getElem?_range hi, Option.map_some, hcov, hoff]
    rw [show i - i / w * w = i % w by omega, List.getD_eq_getElem?_getD, ← hval, hsome]
    rfl
  · rw [List.getElem?_eq_none (by omega), List.getElem?_eq_none (by simpa using hi)]

/-! ## Exact chunks -/

/-- The chunks of `w` values, without a shorter rest. -/
def chunksExact (buf : List α) (w : Nat) : List (List α) :=
  (List.range (buf.length / w)).map fun i => slice buf (i * w) w

theorem length_of_mem_chunksExact {buf : List α} {w : Nat} {chunk : List α}
    (h : chunk ∈ chunksExact buf w) : chunk.length = w := by
  obtain ⟨i, hi, rfl⟩ := List.mem_map.mp h
  have hle := Nat.mul_le_of_le_div w (i + 1) buf.length (List.mem_range.mp hi)
  rw [Nat.succ_mul] at hle
  exact length_slice hle

/-- The chunks of a range that starts and ends between chunks. -/
theorem chunksExact_slice {buf : List α} {w k n : Nat} (hw : 0 < w)
    (h : (k + n) * w ≤ buf.length) :
    chunksExact (slice buf (k * w) (n * w)) w =
      (List.range n).map fun i => slice buf ((k + i) * w) w := by
  have hlen : (slice buf (k * w) (n * w)).length = n * w :=
    length_slice (by rwa [← Nat.add_mul])
  unfold chunksExact
  rw [hlen, Nat.mul_div_cancel _ hw]
  refine List.map_congr_left fun i hi => ?_
  have hle := Nat.mul_le_mul_right w (Nat.succ_le_of_lt (List.mem_range.mp hi))
  rw [Nat.succ_mul] at hle
  rw [slice_slice _ _ _ _ _ hle, Nat.add_mul]

/-- Blocks of `w` values in a row are the chunks of the row. -/
theorem chunksExact_flatMap {w : Nat} {f : κ → List α} {xs : List κ} (hw : 0 < w)
    (h : ∀ x ∈ xs, (f x).length = w) : chunksExact (xs.flatMap f) w = xs.map f := by
  unfold chunksExact
  rw [length_flatMap_uniform h, Nat.mul_div_cancel _ hw]
  refine List.ext_getElem? fun i => ?_
  rw [List.getElem?_map, List.getElem?_map]
  cases hx : xs[i]? with
  | none =>
    rw [List.getElem?_eq_none (by simpa using List.getElem?_eq_none_iff.mp hx)]
    rfl
  | some x =>
    have hi : i < xs.length := (List.getElem?_eq_some_iff.mp hx).1
    rw [List.getElem?_range hi]
    exact congrArg some (slice_flatMap h hx)

/-- Whole chunks in a row are the buffer. -/
theorem flatten_chunksExact {buf : List α} {w : Nat} (h : w ∣ buf.length) :
    (chunksExact buf w).flatten = buf := by
  have hchunks : ∀ n, ((List.range n).map fun i => slice buf (i * w) w).flatten =
      slice buf 0 (n * w) := by
    intro n
    induction n with
    | zero => simp [slice]
    | succ n ih =>
      rw [List.range_succ, List.map_append, List.flatten_append, ih, Nat.succ_mul,
        ← slice_append buf 0 (n * w) w, Nat.zero_add]
      simp
  unfold chunksExact
  rw [hchunks, Nat.div_mul_cancel h]
  simp [slice]

/-- A function on every chunk. -/
def mapChunks (w : Nat) (f : List α → List α) (buf : List α) : List α :=
  (chunksExact buf w).flatMap f

theorem length_mapChunks {w v : Nat} {f : List α → List α} {buf : List α}
    (hf : ∀ chunk, chunk.length = w → (f chunk).length = v) :
    (mapChunks w f buf).length = buf.length / w * v := by
  unfold mapChunks
  rw [length_flatMap_uniform fun chunk hc => hf chunk (length_of_mem_chunksExact hc)]
  simp [chunksExact]

theorem mapChunks_id {buf : List α} {w : Nat} (h : w ∣ buf.length) : mapChunks w id buf = buf := by
  unfold mapChunks
  rw [List.flatMap_id, flatten_chunksExact h]

/-- **Functions on chunks compose**, if the first one makes chunks for the second. -/
theorem mapChunks_mapChunks {w v : Nat} {f g : List α → List α} {buf : List α} (hv : 0 < v)
    (hf : ∀ chunk, chunk.length = w → (f chunk).length = v) :
    mapChunks v g (mapChunks w f buf) = mapChunks w (g ∘ f) buf := by
  unfold mapChunks
  rw [chunksExact_flatMap hv fun chunk hc => hf chunk (length_of_mem_chunksExact hc),
    List.flatMap_map]
  rfl

end Buffer
