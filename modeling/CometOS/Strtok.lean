import CometOS.Lib.Tokens

/-!
# `strtok_r` (`libc/string/strtok.c`, `strspn.c`, `strpbrk.c`, `libc/stdlib/find.c`)

The string and the set of delimiters are two objects, each a list of bytes that ends with its
terminator.  A pointer into the string is a position; one that is only read from is what is left of
its object.  `none` is an access outside the object, so that what returns has stayed inside.
-/

namespace CometOS

open Tokens

/-! ### The library functions -/

/-- The inner loop of `strspn`: where `temp` stops. -/
def strspnInner (c : UInt8) : List UInt8 → Option (List UInt8)
  | [] => none
  | t :: temp => if t = 0 then some (t :: temp)
    else if c = t then some (t :: temp) else strspnInner c temp

/-- `strspn`, with the `size` counted so far. -/
def strspnFrom (size : ℕ) : List UInt8 → List UInt8 → Option ℕ
  | [], _ => none
  | c :: ptr, str2 =>
    if c = 0 then some size
    else (strspnInner c str2).bind fun temp => (temp.head?).bind fun t =>
      if t = 0 then some size else strspnFrom (size + 1) ptr str2

def strspn (str1 str2 : List UInt8) : Option ℕ := strspnFrom 0 str1 str2

/-- The inner loop of `strpbrk`: whether it returns. -/
def strpbrkInner (c : UInt8) : List UInt8 → Option Bool
  | [] => none
  | t :: acc => if t = 0 then some false else if t = c then some true else strpbrkInner c acc

/-- `strpbrk`: how far on the first delimiter is, with the distance gone so far; the inner `none` is
`NULL`. -/
def strpbrkFrom (distance : ℕ) : List UInt8 → List UInt8 → Option (Option ℕ)
  | [], _ => none
  | c :: str1, str2 =>
    if c = 0 then some none
    else (strpbrkInner c str2).bind fun found =>
      if found then some (some distance) else strpbrkFrom (distance + 1) str1 str2

def strpbrk (str1 str2 : List UInt8) : Option (Option ℕ) := strpbrkFrom 0 str1 str2

/-- `lfind`: how far on the first `str2` is, with the count so far. -/
def lfindFrom (i : ℕ) : List UInt8 → UInt8 → Option ℕ
  | [], _ => none
  | c :: str1, str2 => if c ≠ str2 then lfindFrom (i + 1) str1 str2 else some i

def lfind (str1 : List UInt8) (str2 : UInt8) : Option ℕ := lfindFrom 0 str1 str2

/-! ### `strtok_r` -/

/-- What a call leaves: its result, the string and `*saveptr`. -/
structure StrtokResult where
  token : Option ℕ
  buf : List UInt8
  saveptr : ℕ

/-- `strtok_r`; `str = none` is `NULL`. -/
def strtokR (buf : List UInt8) (str : Option ℕ) (delim : List UInt8) (saveptr : ℕ) :
    Option StrtokResult :=
  let str := str.getD saveptr
  (strspn (buf.drop str) delim).bind fun n =>
    let str := str + n
    (buf[str]?).bind fun c =>
      if c = 0 then some ⟨none, buf, str⟩
      else
        let token := str
        (strpbrk (buf.drop token) delim).bind fun str =>
          match str with
          | none => (lfind (buf.drop token) 0).map fun i => ⟨some token, buf, token + i⟩
          | some k =>
            if token + k < buf.length then
              some ⟨some token, buf.set (token + k) 0, token + k + 1⟩
            else none

/-- `n` calls, the first one on `str` and the others on `NULL`: the results in order, the string and
`*saveptr`. -/
def strtokCalls (delim : List UInt8) : ℕ → List UInt8 → Option ℕ → ℕ →
    Option (List (Option ℕ) × List UInt8 × ℕ)
  | 0, buf, _, saveptr => some ([], buf, saveptr)
  | n + 1, buf, str, saveptr =>
    (strtokR buf str delim saveptr).bind fun r =>
      (strtokCalls delim n r.buf none r.saveptr).map fun rest => (r.token :: rest.1, rest.2)

section Strtok

variable {d xs zs : List UInt8} {c y : UInt8}

/-! ### The library functions on strings -/

/-- The inner loop stops at the terminator exactly if the character is no delimiter. -/
theorem strspnInner_eq (hd : 0 ∉ d) :
    ∃ t temp, strspnInner c (d ++ [0]) = some (t :: temp) ∧ (t = 0 ↔ c ∉ d) := by
  induction d with
  | nil => exact ⟨0, [], rfl, iff_of_true rfl List.not_mem_nil⟩
  | cons t d ih =>
    rw [List.mem_cons, not_or] at hd
    obtain ⟨h0, hd⟩ := hd
    rw [List.cons_append, strspnInner, if_neg (Ne.symm h0)]
    by_cases hc : c = t
    · rw [if_pos hc]
      refine ⟨t, d ++ [0], rfl, iff_of_false (Ne.symm h0) ?_⟩
      rw [hc, not_not]
      exact List.mem_cons_self
    · rw [if_neg hc]
      obtain ⟨t', temp, htemp, hiff⟩ := ih hd
      refine ⟨t', temp, htemp, ?_⟩
      rw [hiff, List.mem_cons, not_or]
      exact ⟨fun h => ⟨hc, h⟩, And.right⟩

/-- **`strspn`** counts the delimiters at the front. -/
theorem strspnFrom_eq (hd : 0 ∉ d) (hxs : ∀ c ∈ xs, c ∈ d) (hy : y ∉ d) (size : ℕ) :
    strspnFrom size (xs ++ y :: zs) (d ++ [0]) = some (size + xs.length) := by
  induction xs generalizing size with
  | nil =>
    rw [List.nil_append, strspnFrom]
    by_cases h0 : y = 0
    · rw [if_pos h0]
      rfl
    · obtain ⟨t, temp, htemp, hiff⟩ := strspnInner_eq (c := y) hd
      rw [if_neg h0, htemp, Option.bind_some, List.head?_cons, Option.bind_some, if_pos (hiff.2 hy)]
      rfl
  | cons x xs ih =>
    have hx := hxs x List.mem_cons_self
    have h0 : x ≠ 0 := by
      rintro rfl
      exact hd hx
    obtain ⟨t, temp, htemp, hiff⟩ := strspnInner_eq (c := x) hd
    rw [List.cons_append, strspnFrom, if_neg h0, htemp, Option.bind_some, List.head?_cons,
      Option.bind_some, if_neg fun ht => hiff.1 ht hx, ih fun c hc => hxs c (List.mem_cons_of_mem _ hc),
      List.length_cons]
    congr 1
    omega

theorem strpbrkInner_eq (hd : 0 ∉ d) : strpbrkInner c (d ++ [0]) = some (decide (c ∈ d)) := by
  induction d with
  | nil => rfl
  | cons t d ih =>
    rw [List.mem_cons, not_or] at hd
    obtain ⟨h0, hd⟩ := hd
    rw [List.cons_append, strpbrkInner, if_neg (Ne.symm h0)]
    by_cases hc : t = c
    · rw [if_pos hc, decide_eq_true (by rw [hc]; exact List.mem_cons_self)]
    · have hiff : c ∈ t :: d ↔ c ∈ d := by
        rw [List.mem_cons]
        exact or_iff_right (Ne.symm hc)
      rw [if_neg hc, ih hd]
      simp only [hiff]

/-- **`strpbrk`** finds the first delimiter, or `NULL` at the end of the string. -/
theorem strpbrkFrom_eq (hd : 0 ∉ d) (hxs : ∀ c ∈ xs, c ∉ d ∧ c ≠ 0) (hy : y = 0 ∨ y ∈ d)
    (distance : ℕ) : strpbrkFrom distance (xs ++ y :: zs) (d ++ [0]) =
      some (if y = 0 then none else some (distance + xs.length)) := by
  induction xs generalizing distance with
  | nil =>
    rw [List.nil_append, strpbrkFrom]
    by_cases h0 : y = 0
    · rw [if_pos h0, if_pos h0]
    · rw [if_neg h0, if_neg h0, strpbrkInner_eq hd, Option.bind_some,
        decide_eq_true (hy.resolve_left h0), if_pos rfl]
      rfl
  | cons x xs ih =>
    obtain ⟨hx, h0⟩ := hxs x List.mem_cons_self
    rw [List.cons_append, strpbrkFrom, if_neg h0, strpbrkInner_eq hd, Option.bind_some,
      decide_eq_false hx, if_neg (by decide), ih fun c hc => hxs c (List.mem_cons_of_mem _ hc),
      List.length_cons, Nat.add_right_comm]
    rfl

/-- **`lfind`** of the terminator is the end of the string. -/
theorem lfindFrom_eq (hxs : 0 ∉ xs) (i : ℕ) : lfindFrom i (xs ++ 0 :: zs) 0 = some (i + xs.length) := by
  induction xs generalizing i with
  | nil => rfl
  | cons x xs ih =>
    rw [List.mem_cons, not_or] at hxs
    rw [List.cons_append, lfindFrom, if_pos (Ne.symm hxs.1), ih hxs.2, List.length_cons]
    congr 1
    omega

/-! ### One call -/

variable {buf : List UInt8} {off saveptr : ℕ} {str : Option ℕ}

/-- Where the next call begins, and what lies before the end of the string from there on. -/
structure AtString (buf : List UInt8) (str : Option ℕ) (saveptr off : ℕ) (xs : List UInt8) : Prop where
  off_eq : str.getD saveptr = off
  rest : buf.drop off = xs ++ [0]
  no_nul : 0 ∉ xs

theorem AtString.getElem? (h : AtString buf str saveptr off xs) (k : ℕ) :
    buf[off + k]? = (xs ++ [0])[k]? := by
  rw [← h.rest, List.getElem?_drop]

theorem AtString.length (h : AtString buf str saveptr off xs) :
    off + xs.length + 1 = buf.length := by
  have := congrArg List.length h.rest
  rw [List.length_drop, List.length_append, List.length_singleton] at this
  omega

/-- Further on in the same string. -/
theorem AtString.drop (h : AtString buf str saveptr off xs) {ws ys : List UInt8}
    (hxs : xs = ws ++ ys) : AtString buf none (off + ws.length) (off + ws.length) ys := by
  refine ⟨rfl, ?_, fun h0 => h.no_nul (by rw [hxs]; exact List.mem_append_right _ h0)⟩
  rw [← List.drop_drop, h.rest, hxs, List.append_assoc, List.drop_left]

/-- A store just before. -/
theorem AtString.set (h : AtString buf none off off xs) {j : ℕ} (hj : j < off) :
    AtString (buf.set j 0) none off off xs := by
  refine ⟨rfl, ?_, h.no_nul⟩
  rw [List.drop_set_of_lt hj, h.rest]

/-- `strtok_r` where no token is left. -/
theorem strtokR_none (hd : 0 ∉ d) (h : AtString buf str saveptr off xs) (hxs : ∀ c ∈ xs, c ∈ d) :
    strtokR buf str (d ++ [0]) saveptr = some ⟨none, buf, off + xs.length⟩ := by
  have hspn : strspn (buf.drop off) (d ++ [0]) = some xs.length := by
    rw [h.rest, strspn, strspnFrom_eq hd hxs hd, Nat.zero_add]
  have hend : buf[off + xs.length]? = some 0 := by
    rw [h.getElem?, List.getElem?_append_right le_rfl, Nat.sub_self]
    rfl
  rw [strtokR, h.off_eq]
  simp only [hspn, Option.bind_some, hend, if_true]

/-- `strtok_r` where there is one: `ts`, and after it the end of the string or a delimiter. -/
theorem strtokR_some (hd : 0 ∉ d) {ws ts zs : List UInt8} {t : UInt8}
    (h : AtString buf str saveptr off (ws ++ (t :: ts ++ zs))) (hws : ∀ c ∈ ws, c ∈ d)
    (hts : ∀ c ∈ t :: ts, c ∉ d) (hzs : ∀ z ∈ zs.head?, z ∈ d) :
    strtokR buf str (d ++ [0]) saveptr = some ⟨some (off + ws.length),
      if zs = [] then buf else buf.set (off + ws.length + (t :: ts).length) 0,
      off + ws.length + (t :: ts).length + if zs = [] then 0 else 1⟩ := by
  have hnul : ∀ c ∈ t :: ts, c ≠ 0 := by
    rintro c hc rfl
    exact h.no_nul (List.mem_append_right _ (List.mem_append_left _ hc))
  have ht : AtString buf none (off + ws.length) (off + ws.length) (t :: ts ++ zs) := h.drop rfl
  have hspn : strspn (buf.drop off) (d ++ [0]) = some ws.length := by
    rw [h.rest, List.append_assoc, strspn, List.cons_append, List.cons_append,
      strspnFrom_eq hd hws (hts t List.mem_cons_self), Nat.zero_add]
  have hat : buf[off + ws.length]? = some t := by
    have := ht.getElem? 0
    rw [Nat.add_zero] at this
    rw [this]
    rfl
  have htok : ∀ c ∈ t :: ts, c ∉ d ∧ c ≠ 0 := fun c hc => ⟨hts c hc, hnul c hc⟩
  rw [strtokR, h.off_eq]
  simp only [hspn, Option.bind_some, hat]
  rw [if_neg (hnul t List.mem_cons_self)]
  cases zs with
  | nil =>
    have hpbrk : strpbrk (buf.drop (off + ws.length)) (d ++ [0]) = some none := by
      rw [ht.rest, List.append_nil, strpbrk, strpbrkFrom_eq hd htok (Or.inl rfl), if_pos rfl]
    have hfind : lfind (buf.drop (off + ws.length)) 0 = some (t :: ts).length := by
      rw [ht.rest, List.append_nil, lfind, lfindFrom_eq fun h0 => hnul 0 h0 rfl, Nat.zero_add]
    simp only [hpbrk, Option.bind_some, hfind, Option.map_some, if_true, Nat.add_zero]
  | cons z zs =>
    have hz : z ∈ d := hzs z rfl
    have hz0 : z ≠ 0 := by
      rintro rfl
      exact hd hz
    have hpbrk : strpbrk (buf.drop (off + ws.length)) (d ++ [0]) =
        some (some (t :: ts).length) := by
      rw [ht.rest, List.append_assoc, strpbrk]
      have hfrom := @strpbrkFrom_eq d (t :: ts) (zs ++ [0]) z hd htok (Or.inr hz) 0
      rwa [if_neg hz0, Nat.zero_add] at hfrom
    have hlen := ht.length
    rw [List.length_append] at hlen
    simp only [hpbrk, Option.bind_some]
    rw [if_pos (by omega), if_neg (List.cons_ne_nil z zs), if_neg (List.cons_ne_nil z zs)]

/-- **One call of `strtok_r`** returns the next token, ends it with a NUL and goes on behind it, or
returns `NULL` and stays at the end. -/
theorem strtokR_eq (hd : 0 ∉ d) (h : AtString buf str saveptr off xs) :
    (∃ save, strtokR buf str (d ++ [0]) saveptr = some ⟨none, buf, save⟩ ∧
      tokens (· ∈ d) off none xs = [] ∧ AtString buf none save save []) ∨
    ∃ i j rest save xs', strtokR buf str (d ++ [0]) saveptr = some ⟨some i, buf.set j 0, save⟩ ∧
      tokens (· ∈ d) off none xs = (i, j) :: rest ∧ tokens (· ∈ d) save none xs' = rest ∧
      j < buf.length ∧ AtString (buf.set j 0) none save save xs' := by
  obtain ⟨ws, ys, rfl, hws, hys⟩ := exists_split (· ∈ d) xs
  have hws' : ∀ c ∈ ws, c ∈ d := fun c hc => of_decide_eq_true (hws c hc)
  rcases hys with rfl | ⟨t, ys, rfl, hy⟩
  · left
    rw [List.append_nil] at h ⊢
    refine ⟨_, strtokR_none hd h hws', ?_, h.drop (List.append_nil ws).symm⟩
    have hnone : tokens (· ∈ d) off none (ws ++ []) = _ := tokens_skip hws
    rwa [List.append_nil] at hnone
  · right
    obtain ⟨ts, zs, hts, htd, hzs⟩ := exists_split (· ∉ d) ys
    have ht : t ∉ d := by simpa using hy
    have htok : ∀ c ∈ t :: ts, decide (c ∈ d) = false := by
      intro c hc
      rw [decide_eq_false_iff_not]
      rcases List.mem_cons.1 hc with rfl | hc
      · exact ht
      · simpa using htd c hc
    subst hts
    have hstart : tokens (· ∈ d) off none (ws ++ (t :: ts ++ zs)) = tokens (· ∈ d)
        (off + ws.length + (t :: ts).length) (some (off + ws.length)) zs := by
      rw [tokens_skip hws, List.cons_append, tokens_start (by simpa using ht), ← List.cons_append,
        tokens_inside htok]
    have hcall := strtokR_some hd h hws'
      (fun c hc => by simpa using htok c hc) (fun z hz => by
        rcases hzs with rfl | ⟨y, zs', rfl, hy'⟩
        · cases hz
        · obtain rfl := Option.some.inj hz
          simpa using hy')
    have hj : AtString buf none (off + ws.length + (t :: ts).length)
        (off + ws.length + (t :: ts).length) zs := AtString.drop (h.drop rfl) rfl
    rcases hzs with rfl | ⟨z, zs', rfl, hz⟩
    · -- the token ends the string, where there is a NUL already
      have hlen := hj.length
      rw [List.length_nil, Nat.add_zero] at hlen
      have hlt : off + ws.length + (t :: ts).length < buf.length := by omega
      have hnul : buf[off + ws.length + (t :: ts).length] = 0 := by
        have := hj.getElem? 0
        rw [Nat.add_zero, List.getElem?_eq_getElem hlt] at this
        exact Option.some.inj this
      have hset : buf.set (off + ws.length + (t :: ts).length) 0 = buf := by
        rw [← hnul, List.set_getElem_self]
      refine ⟨off + ws.length, off + ws.length + (t :: ts).length, [],
        off + ws.length + (t :: ts).length, [], ?_,
        hstart, rfl, hlt, ?_⟩
      · rw [hcall, if_pos rfl, if_pos rfl, hset]
        rfl
      · rw [hset]
        exact hj
    · have hz' : decide (z ∈ d) = true := by simpa using hz
      refine ⟨off + ws.length, off + ws.length + (t :: ts).length, _,
        off + ws.length + (t :: ts).length + 1, zs', ?_, ?_, rfl, ?_, ?_⟩
      · rw [hcall, if_neg (List.cons_ne_nil z zs'), if_neg (List.cons_ne_nil z zs')]
      · exact hstart.trans (by rw [tokens, if_pos hz'])
      · have := hj.length
        omega
      · have hnext : AtString buf none _ _ zs' := @AtString.drop _ _ _ _ _ hj [z] zs' rfl
        exact hnext.set (Nat.lt_succ_self _)

/-! ### Repeated calls -/

/-- The string with a NUL where each of the tokens stops. -/
def terminated (toks : List (ℕ × ℕ)) (buf : List UInt8) : List UInt8 :=
  toks.foldl (fun buf t => buf.set t.2 0) buf

theorem terminated_cons (t : ℕ × ℕ) (toks : List (ℕ × ℕ)) (buf : List UInt8) :
    terminated (t :: toks) buf = terminated toks (buf.set t.2 0) := rfl

theorem terminated_of_ne {toks : List (ℕ × ℕ)} {i : ℕ} (h : ∀ t ∈ toks, t.2 ≠ i) :
    (terminated toks buf)[i]? = buf[i]? := by
  induction toks generalizing buf with
  | nil => rfl
  | cons t toks ih =>
    rw [terminated_cons, ih fun t' ht' => h t' (List.mem_cons_of_mem _ ht'),
      List.getElem?_set_ne (h t List.mem_cons_self)]

theorem terminated_of_mem {toks : List (ℕ × ℕ)} {i : ℕ} (h : ∃ t ∈ toks, t.2 = i)
    (hlt : i < buf.length) : (terminated toks buf)[i]? = some 0 := by
  induction toks generalizing buf with
  | nil =>
    obtain ⟨t, ht, _⟩ := h
    exact (List.not_mem_nil ht).elim
  | cons t toks ih =>
    rw [terminated_cons]
    by_cases hin : ∃ u ∈ toks, u.2 = i
    · exact ih hin (by rwa [List.length_set])
    · obtain ⟨u, hu, hui⟩ := h
      rcases List.mem_cons.1 hu with rfl | hu
      · rw [terminated_of_ne fun v hv hvi => hin ⟨v, hv, hvi⟩, hui, List.getElem?_set_self hlt]
      · exact absurd ⟨u, hu, hui⟩ hin

/-- **The calls** return the starts of the tokens in order, and then `NULL`. -/
theorem strtokCalls_eq (hd : 0 ∉ d) : ∀ (n : ℕ) {buf str saveptr off xs},
    AtString buf str saveptr off xs → ∃ save, strtokCalls (d ++ [0]) n buf str saveptr =
      some ((List.range n).map (fun k => (tokens (· ∈ d) off none xs)[k]?.map Prod.fst),
        terminated ((tokens (· ∈ d) off none xs).take n) buf, save) := by
  intro n
  induction n with
  | zero => intro buf str saveptr off xs _; exact ⟨saveptr, rfl⟩
  | succ n ih =>
    intro buf str saveptr off xs h
    rw [strtokCalls, List.range_succ_eq_map, List.map_cons, List.map_map]
    rcases strtokR_eq hd h with ⟨save, hcall, htoks, hnext⟩ |
      ⟨i, j, rest, save, xs', hcall, htoks, hrest, _, hnext⟩
    · obtain ⟨save', hcalls⟩ := ih hnext
      refine ⟨save', ?_⟩
      rw [hcall, Option.bind_some]
      simp only [hcalls, htoks, tokens, List.take_nil, List.getElem?_nil, Option.map_none,
        Option.map_some]
      rfl
    · obtain ⟨save', hcalls⟩ := ih hnext
      refine ⟨save', ?_⟩
      rw [hcall, Option.bind_some]
      simp only [hcalls, htoks, hrest]
      rfl

/-- **`strtok_r`, called over and over**, returns the tokens of `s` in order, each once, and then
`NULL`.  A token returned is as it was in `s` and ends with a NUL; nothing else in the string has
changed, and no call has left the string's object. -/
theorem strtok_r_tokens (s d : List UInt8) (hs : 0 ∉ s) (hd : 0 ∉ d) (saveptr : ℕ) :
    ∃ toks : List (ℕ × ℕ), (∀ i j, (i, j) ∈ toks ↔ IsToken (· ∈ d) s i j) ∧
      toks.Pairwise (fun a b => a.2 < b.1) ∧
      ∀ n, ∃ buf save, strtokCalls (d ++ [0]) n (s ++ [0]) (some 0) saveptr =
          some ((List.range n).map (fun k => toks[k]?.map Prod.fst), buf, save) ∧
        (∀ t ∈ toks.take n, buf[t.2]? = some 0 ∧ ∀ k, t.1 ≤ k → k < t.2 → buf[k]? = s[k]?) ∧
        ∀ i, (∀ t ∈ toks.take n, t.2 ≠ i) → buf[i]? = (s ++ [0])[i]? := by
  have hmem : ∀ i j, (i, j) ∈ tokens (· ∈ d) 0 none s ↔ IsToken (· ∈ d) s i j := by
    intro i j
    have h : (i, j) ∈ tokens (· ∈ d) 0 none s ↔ _ := mem_tokens s [] none rfl
      (fun _ => Or.inl rfl) fun _ h => by cases h
    exact h.trans (and_iff_left (Nat.zero_le i))
  have hstart : AtString (s ++ [0]) (some 0) saveptr 0 s := ⟨rfl, List.drop_zero, hs⟩
  refine ⟨_, hmem, (tokens_pairwise s 0 none fun _ h => by cases h).1, fun n => ?_⟩
  obtain ⟨save, hcalls⟩ := strtokCalls_eq hd n hstart
  refine ⟨_, save, hcalls, fun t ht => ?_, fun i hi => terminated_of_ne hi⟩
  have htok := (hmem t.1 t.2).1 (List.mem_of_mem_take ht)
  have hle := htok.le
  constructor
  · apply terminated_of_mem ⟨t, ht, rfl⟩
    rw [List.length_append, List.length_singleton]
    omega
  · intro k hk hkt
    -- no token stops inside another
    rw [terminated_of_ne, List.getElem?_append_left (by omega)]
    rintro u hu rfl
    have hu' := (hmem u.1 u.2).1 (List.mem_of_mem_take hu)
    rcases hu'.after with hend | ⟨x, hx, hsep⟩
    · omega
    · rw [htok.inside _ x hk hkt hx] at hsep
      cases hsep

/-- `,a,,b` cut at commas. -/
theorem strtok_r_tokens_commas :
    ∃ toks : List (ℕ × ℕ), (∀ i j, (i, j) ∈ toks ↔
        IsToken (fun c : UInt8 => c ∈ [44]) [44, 97, 44, 44, 98] i j) ∧
      toks.Pairwise (fun a b => a.2 < b.1) ∧
      ∀ n, ∃ buf save, strtokCalls ([44] ++ [0]) n ([44, 97, 44, 44, 98] ++ [0]) (some 0) 0 =
          some ((List.range n).map (fun k => toks[k]?.map Prod.fst), buf, save) ∧
        (∀ t ∈ toks.take n, buf[t.2]? = some 0 ∧
          ∀ k, t.1 ≤ k → k < t.2 → buf[k]? = ([44, 97, 44, 44, 98] : List UInt8)[k]?) ∧
        ∀ i, (∀ t ∈ toks.take n, t.2 ≠ i) → buf[i]? = ([44, 97, 44, 44, 98] ++ [0])[i]? :=
  strtok_r_tokens [44, 97, 44, 44, 98] [44] (by decide) (by decide) 0

end Strtok

end CometOS
