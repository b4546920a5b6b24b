import Tactile.Lib.CodeUnits

/-!
The codecs between bytes and texts of the sync client and the identity.
-/

namespace Tactile.Utils.Encoding

open Tactile.Lib.ByteString Tactile.Lib.Base64 Tactile.Lib.CodeUnits

section Hex

def bytesToHex (bytes : Bytes) : JsString :=
  bytes.flatMap fun b => js ((Nat.toDigits 16 b.toNat).leftpad 2 '0')

def hexToBytes (hex : JsString) : Bytes :=
  (List.range (hex.length / 2)).map fun i => toUint8 (parseHex ((hex.drop (i * 2)).take 2))

theorem hexToBytes_cons (u v : UInt16) (hex : JsString) :
    hexToBytes (u :: v :: hex) = toUint8 (parseHex [u, v]) :: hexToBytes hex := by
  have hlength : (u :: v :: hex).length / 2 = hex.length / 2 + 1 := by
    simp only [List.length_cons]
    omega
  rw [hexToBytes, hlength, List.range_succ_eq_map, List.map_cons, List.map_map]
  congr 1
  apply List.map_congr_left
  intro i _
  have hdrop : (u :: v :: hex).drop (i.succ * 2) = hex.drop (i * 2) := by
    rw [show i.succ * 2 = i * 2 + 2 by omega]
    rfl
  rw [Function.comp_apply, hdrop]

/-- The digits of a byte, the high one first. -/
theorem hexDigits (b : UInt8) : (Nat.toDigits 16 b.toNat).leftpad 2 '0' =
    [(b.toNat / 16).digitChar, (b.toNat % 16).digitChar] := by
  have hall : ∀ n : Fin 256, (Nat.toDigits 16 n.val).leftpad 2 '0' =
      [(n.val / 16).digitChar, (n.val % 16).digitChar] := by decide +kernel
  exact hall ⟨b.toNat, b.toNat_lt⟩

theorem hexDigit_digitChar {n : ℕ} (h : n < 16) : hexDigit (unit n.digitChar) = some n := by
  have hall : ∀ n : Fin 16, hexDigit (unit n.val.digitChar) = some n.val := by decide +kernel
  exact hall ⟨n, h⟩

theorem parseHex_digits {m n : ℕ} (hm : m < 16) (hn : n < 16) :
    parseHex [unit m.digitChar, unit n.digitChar] = some ((16 * m + n : ℕ) : ℤ) := by
  have hall : ∀ m n : Fin 16, parseHex [unit m.val.digitChar, unit n.val.digitChar] =
      some ((16 * m.val + n.val : ℕ) : ℤ) := by decide +kernel
  exact hall ⟨m, hm⟩ ⟨n, hn⟩

theorem bytesToHex_cons (b : UInt8) (bytes : Bytes) : bytesToHex (b :: bytes) =
    unit (b.toNat / 16).digitChar :: unit (b.toNat % 16).digitChar :: bytesToHex bytes := by
  rw [bytesToHex, List.flatMap_cons, hexDigits]
  rfl

theorem length_bytesToHex (bytes : Bytes) : (bytesToHex bytes).length = 2 * bytes.length := by
  induction bytes with
  | nil => rfl
  | cons b bytes ih =>
      rw [bytesToHex_cons]
      simp only [List.length_cons, ih]
      omega

theorem mem_bytesToHex {bytes : Bytes} {u : UInt16} (h : u ∈ bytesToHex bytes) :
    ∃ n < 16, u = unit n.digitChar := by
  induction bytes with
  | nil => cases h
  | cons b bytes ih =>
      have hb := b.toNat_lt
      rw [bytesToHex_cons, List.mem_cons, List.mem_cons] at h
      rcases h with h | h | h
      · exact ⟨_, by omega, h⟩
      · exact ⟨_, by omega, h⟩
      · exact ih h

/-- Hexadecimal texts round trip. -/
theorem hexToBytes_bytesToHex (bytes : Bytes) : hexToBytes (bytesToHex bytes) = bytes := by
  induction bytes with
  | nil => rfl
  | cons b bytes ih =>
      have hb := b.toNat_lt
      have hvalue : ((b.toNat : ℤ) % 256).toNat = b.toNat := by omega
      have hbyte : toUint8 (some ((16 * (b.toNat / 16) + b.toNat % 16 : ℕ) : ℤ)) = b := by
        rw [Nat.div_add_mod, toUint8, hvalue, UInt8.ofNat_toNat]
      rw [bytesToHex_cons, hexToBytes_cons, parseHex_digits (by omega) (by omega), hbyte, ih]

end Hex

section Base64

def chunk : ℕ := 0x8000

/-- The string of the bytes from some place on, which grows by one chunk in each turn. -/
def toBinary (bytes : Bytes) : ℕ → ℕ → JsString
  | 0, _ => []
  | turns + 1, i =>
    if i < bytes.length then
      (bytes.drop i |>.take chunk).map UInt8.toUInt16 ++ toBinary bytes turns (i + chunk)
    else []

def bytesToBase64 (bytes : Bytes) : Option JsString := btoa (toBinary bytes (bytes.length + 1) 0)

def base64ToBytes (b64 : JsString) : Option Bytes :=
  (atob b64).map fun binary => binary.map UInt16.toUInt8

/-- `replaceAll` of one character by another. -/
def replaceAll (old new : Char) (s : JsString) : JsString :=
  s.map fun u => if u = unit old then unit new else u

def bytesToBase64Url (bytes : Bytes) : Option JsString :=
  (bytesToBase64 bytes).map fun b64 =>
    ((replaceAll '/' '_' (replaceAll '+' '-' b64)).reverse.dropWhile (· = unit '=')).reverse

def base64UrlToBytes (b64url : JsString) : Option Bytes :=
  let b64 := replaceAll '_' '/' (replaceAll '-' '+' b64url)
  base64ToBytes (b64 ++ List.replicate ((4 - b64.length % 4) % 4) (unit '='))

/-- The chunks leave no trace in the string. -/
theorem toBinary_eq (bytes : Bytes) (turns i : ℕ) (h : bytes.length < i + turns) :
    toBinary bytes turns i = (bytes.drop i).map UInt8.toUInt16 := by
  induction turns generalizing i with
  | zero =>
      rw [List.drop_eq_nil_of_le (by omega)]
      rfl
  | succ turns ih =>
      rw [toBinary]
      split
      · rw [ih (i + chunk) (by simp only [chunk]; omega), ← List.map_append, ← List.drop_drop,
          List.take_append_drop]
      · rw [List.drop_eq_nil_of_le (by omega)]
        rfl

theorem toUInt8_toUInt16 (bytes : Bytes) :
    (bytes.map UInt8.toUInt16).map UInt16.toUInt8 = bytes := by
  rw [List.map_map]
  exact List.map_id'' (fun b => UInt8.toUInt8_toUInt16 b) bytes

theorem bytesToBase64_eq (bytes : Bytes) : bytesToBase64 bytes = some (js (encode std true bytes)) := by
  have hbytes : (bytes.map UInt8.toUInt16).all (· < 256) = true := by
    rw [List.all_map, List.all_eq_true]
    intro b _
    have hb := b.toNat_lt
    simpa [UInt16.lt_iff_toNat_lt] using hb
  rw [bytesToBase64, toBinary_eq _ _ _ (by omega), List.drop_zero, btoa, if_pos hbytes,
    toUInt8_toUInt16]

theorem alphabet_lt {c : Char} (h : c ∈ std.chars ++ url.chars) : c.toNat < 128 := by
  have hall : ((std.chars ++ url.chars).all fun c => c.toNat < 128) = true := by decide +kernel
  exact of_decide_eq_true (List.all_eq_true.mp hall c h)

theorem unit_eq_iff {c d : Char} (hc : c.toNat < 128) (hd : d.toNat < 128) :
    unit c = unit d ↔ c = d :=
  ⟨unit_inj (by omega) (by omega), congrArg unit⟩

theorem replaceAll_twice {a b c d : Char} (h : unit b ≠ unit c) (s : JsString) :
    replaceAll c d (replaceAll a b s) =
      s.map fun u => if u = unit a then unit b else if u = unit c then unit d else u := by
  rw [replaceAll, replaceAll, List.map_map]
  apply List.map_congr_left
  intro u _
  rw [Function.comp_apply]
  by_cases hu : u = unit a
  · rw [if_pos hu, if_neg h, if_pos hu]
  · rw [if_neg hu, if_neg hu]

theorem replaceAll_toUrl {cs : List Char} (h : ∀ c ∈ cs, c.toNat < 128) :
    replaceAll '/' '_' (replaceAll '+' '-' (js cs)) = js (cs.map toUrl) := by
  rw [replaceAll_twice (by decide), js, js, List.map_map, List.map_map]
  apply List.map_congr_left
  intro c hc
  simp only [Function.comp_apply, unit_eq_iff (h c hc) (by decide : '+'.toNat < 128),
    unit_eq_iff (h c hc) (by decide : '/'.toNat < 128), toUrl]
  split
  · rfl
  · split
    · rfl
    · rfl

theorem js_append (xs ys : List Char) : js (xs ++ ys) = js xs ++ js ys := List.map_append

theorem js_padding (n : ℕ) : js (List.replicate n '=') = List.replicate n (unit '=') :=
  List.map_replicate

theorem notMem_pad {α : Alphabet} (hα : ∀ c ∈ α.chars, c.toNat < 128) (bytes : Bytes) :
    unit '=' ∉ js (digits α bytes) := by
  intro hmem
  obtain ⟨c, hc, hunit⟩ := List.mem_map.mp hmem
  have hplain := (α.plain c (mem_digits hc)).1
  exact hplain ((unit_eq_iff (hα c (mem_digits hc)) (by decide)).mp hunit)

/-- The text without its padding. -/
theorem strip_replicate {s : JsString} (h : unit '=' ∉ s) (n : ℕ) :
    ((s ++ List.replicate n (unit '=')).reverse.dropWhile (· = unit '=')).reverse = s := by
  have hself : s.reverse.dropWhile (· = unit '=') = s.reverse := by
    cases hs : s.reverse with
    | nil => rfl
    | cons u t =>
        have hu : u ∈ s := by
          rw [← List.mem_reverse, hs]
          exact List.mem_cons_self
        refine List.dropWhile_cons_of_neg ?_
        simp only [decide_eq_true_eq]
        rintro rfl
        exact h hu
  rw [List.reverse_append, List.reverse_replicate, List.dropWhile_append_of_pos, hself,
    List.reverse_reverse]
  intro u hu
  exact decide_eq_true (List.eq_of_mem_replicate hu)

theorem std_lt {c : Char} (h : c ∈ std.chars) : c.toNat < 128 :=
  alphabet_lt (List.mem_append_left _ h)

theorem url_lt {c : Char} (h : c ∈ url.chars) : c.toNat < 128 :=
  alphabet_lt (List.mem_append_right _ h)

theorem bytesToBase64Url_eq (bytes : Bytes) :
    bytesToBase64Url bytes = some (js (digits url bytes)) := by
  have hchars : ∀ c ∈ encode std true bytes, c.toNat < 128 := by
    intro c hc
    rw [encode, if_pos rfl, List.mem_append] at hc
    rcases hc with hc | hc
    · exact std_lt (mem_digits hc)
    · rw [List.eq_of_mem_replicate hc]
      decide
  rw [bytesToBase64Url, bytesToBase64_eq, Option.map_some, replaceAll_toUrl hchars, encode,
    if_pos rfl, List.map_append, map_toUrl_digits, padding, List.map_replicate, js_append,
    show toUrl '=' = '=' from rfl, js_padding, strip_replicate (notMem_pad (fun _ => url_lt) bytes)]

end Base64

section Decoding

/-- The characters that a base64 text denotes its bytes by, in the URL alphabet. -/
def urlDigits (s : JsString) : List Char :=
  ((s.filter fun u => !isAsciiSpace u && !decide (u = unit '=')).map charOf).map toUrl

/-- Bytes are what the digits of a text spell, in either alphabet and with or without padding
and white space. -/
def Denotes (s : JsString) (bytes : Bytes) : Prop :=
  ∃ ns, Reads url (urlDigits s) ns ∧ BitsOf bytes ns

theorem Denotes.unique {s : JsString} {bytes bytes' : Bytes} (h : Denotes s bytes)
    (h' : Denotes s bytes') : bytes = bytes' := by
  obtain ⟨ns, hns, hbits⟩ := h
  obtain ⟨ns', hns', hbits'⟩ := h'
  have heq : ns = ns' := List.map_injective_iff.mpr (Option.some_injective ℕ) (hns.symm.trans hns')
  exact hbits.unique (heq ▸ hbits')

theorem filter_dropPad (s : JsString) :
    (dropPad s).filter (fun u => !decide (u = unit '=')) =
      s.filter (fun u => !decide (u = unit '=')) := by
  rw [dropPad]
  split
  next h =>
    obtain ⟨t, rfl⟩ := List.getLast?_eq_some_iff.mp h
    simp
  next => rfl

theorem filter_digitsOf (s : JsString) :
    (digitsOf s).filter (fun u => !decide (u = unit '=')) =
      s.filter (fun u => !isAsciiSpace u && !decide (u = unit '=')) := by
  rw [digitsOf]
  split
  · rw [filter_dropPad, filter_dropPad, List.filter_filter]
    exact List.filter_congr fun u _ => Bool.and_comm _ _
  · rw [List.filter_filter]
    exact List.filter_congr fun u _ => Bool.and_comm _ _

/-- What reads in the standard alphabet has no padding in it. -/
theorem reads_ne_pad {t : JsString} {ns : List ℕ} (h : Reads std (t.map charOf) ns) :
    t.filter (fun u => !decide (u = unit '=')) = t := by
  rw [List.filter_eq_self]
  intro u hu
  simp only [Bool.not_eq_true', decide_eq_false_iff_not]
  rintro rfl
  have hvalue : std.value (charOf (unit '=')) ∈ (t.map charOf).map std.value :=
    List.mem_map_of_mem (List.mem_map_of_mem hu)
  rw [Reads] at h
  rw [h, List.mem_map] at hvalue
  obtain ⟨n, -, hn⟩ := hvalue
  have hnone : std.value (charOf (unit '=')) = none := by decide +kernel
  rw [hnone] at hn
  cases hn

/-- The code unit of the standard alphabet. -/
def ofUrl (u : UInt16) : UInt16 :=
  if u = unit '-' then unit '+' else if u = unit '_' then unit '/' else u

theorem replaceAll_ofUrl (s : JsString) : replaceAll '_' '/' (replaceAll '-' '+' s) = s.map ofUrl :=
  replaceAll_twice (by decide) s

theorem ofUrl_cases (u : UInt16) : u = unit '-' ∨ u = unit '_' ∨ ofUrl u = u := by
  by_cases hminus : u = unit '-'
  · exact .inl hminus
  · by_cases hlow : u = unit '_'
    · exact .inr (.inl hlow)
    · exact .inr (.inr (by rw [ofUrl, if_neg hminus, if_neg hlow]))

theorem toUrl_ofUrl (u : UInt16) : toUrl (charOf (ofUrl u)) = toUrl (charOf u) := by
  rcases ofUrl_cases u with rfl | rfl | h
  · decide
  · decide
  · rw [h]

theorem ignored_ofUrl (u : UInt16) :
    (!isAsciiSpace (ofUrl u) && !decide (ofUrl u = unit '=')) =
      (!isAsciiSpace u && !decide (u = unit '=')) := by
  rcases ofUrl_cases u with rfl | rfl | h
  · decide
  · decide
  · rw [h]

/-- Padding and the alphabet leave the digits as they are. -/
theorem urlDigits_ofUrl (s : JsString) (n : ℕ) :
    urlDigits (s.map ofUrl ++ List.replicate n (unit '=')) = urlDigits s := by
  have hpad : (List.replicate n (unit '=')).filter
      (fun u => !isAsciiSpace u && !decide (u = unit '=')) = [] := by
    rw [List.filter_eq_nil_iff]
    intro u hu
    simp [List.eq_of_mem_replicate hu]
  have hfilter : (s.map ofUrl).filter (fun u => !isAsciiSpace u && !decide (u = unit '=')) =
      (s.filter fun u => !isAsciiSpace u && !decide (u = unit '=')).map ofUrl := by
    rw [List.filter_map]
    exact congrArg _ (List.filter_congr fun u _ => ignored_ofUrl u)
  rw [urlDigits, List.filter_append, hpad, List.append_nil, hfilter, List.map_map, List.map_map,
    urlDigits, List.map_map]
  exact List.map_congr_left fun u _ => toUrl_ofUrl u

/-- What a text decodes to is what its digits spell. -/
theorem base64UrlToBytes_denotes {s : JsString} {bytes : Bytes}
    (h : base64UrlToBytes s = some bytes) : Denotes s bytes := by
  rw [base64UrlToBytes, base64ToBytes, atob, Option.map_map, Option.map_eq_some_iff] at h
  obtain ⟨bytes', hdecode, hbytes⟩ := h
  rw [Function.comp_apply, toUInt8_toUInt16] at hbytes
  subst hbytes
  obtain ⟨ns, hns, hbits⟩ := decodeQuads_bits hdecode
  refine ⟨ns, ?_, hbits⟩
  have hdigits := hns.toUrl
  rwa [← reads_ne_pad hns, filter_digitsOf, ← urlDigits, replaceAll_ofUrl, urlDigits_ofUrl] at hdigits

theorem length_digits (α : Alphabet) (bytes : Bytes) :
    (4 - (digits α bytes).length % 4) % 4 = (3 - bytes.length % 3) % 3 := by
  induction bytes using digits.induct with
  | case1 => simp [digits]
  | case2 x => simp [digits]
  | case3 x y => simp [digits]
  | case4 x y z rest ih =>
      simp only [digits, List.length_cons] at ih ⊢
      omega

theorem map_ofUrl_digits (bytes : Bytes) :
    (js (digits url bytes)).map ofUrl = js (digits std bytes) := by
  have hdigit : ∀ c ∈ digits std bytes, ofUrl (unit (toUrl c)) = unit c := by
    intro c hc
    have hall : (std.chars.all fun c => ofUrl (unit (toUrl c)) = unit c) = true := by decide +kernel
    exact of_decide_eq_true (List.all_eq_true.mp hall c (mem_digits hc))
  rw [← map_toUrl_digits, js, js, List.map_map, List.map_map]
  exact List.map_congr_left hdigit

theorem dropPad_append (s : JsString) : dropPad (s ++ [unit '=']) = s := by
  simp [dropPad]

theorem dropPad_self {s : JsString} (h : unit '=' ∉ s) : dropPad s = s := by
  rw [dropPad, if_neg fun hlast => h (List.mem_of_getLast? hlast)]

/-- The digits of a string that has padding up to a whole number of quads. -/
theorem digitsOf_padded {s : JsString} (hpad : unit '=' ∉ s)
    (hspace : ∀ u ∈ s, isAsciiSpace u = false) {n : ℕ} (hn : n ≤ 2)
    (hlength : (s.length + n) % 4 = 0) : digitsOf (s ++ List.replicate n (unit '=')) = s := by
  have hfilter : (s ++ List.replicate n (unit '=')).filter (fun u => !isAsciiSpace u) =
      s ++ List.replicate n (unit '=') := by
    rw [List.filter_eq_self]
    intro u hu
    rcases List.mem_append.mp hu with hu | hu
    · simp [hspace u hu]
    · rw [List.eq_of_mem_replicate hu]
      decide
  rw [digitsOf, hfilter, if_pos (by simpa using hlength)]
  match n, hn with
  | 0, _ => rw [List.replicate_zero, List.append_nil, dropPad_self hpad, dropPad_self hpad]
  | 1, _ => rw [List.replicate_one, dropPad_append, dropPad_self hpad]
  | 2, _ =>
      have htwo : s ++ List.replicate 2 (unit '=') = s ++ [unit '='] ++ [unit '='] := by
        rw [List.append_assoc]
        rfl
      rw [htwo, dropPad_append, dropPad_append]

/-- Decoding undoes encoding. -/
theorem base64UrlToBytes_digits (bytes : Bytes) :
    base64UrlToBytes (js (digits url bytes)) = some bytes := by
  have hspace : ∀ u ∈ js (digits std bytes), isAsciiSpace u = false := by
    intro u hu
    obtain ⟨c, hc, rfl⟩ := List.mem_map.mp hu
    have hall : (std.chars.all fun c => isAsciiSpace (unit c) = false) = true := by decide +kernel
    exact of_decide_eq_true (List.all_eq_true.mp hall c (mem_digits hc))
  have hchars : (js (digits std bytes)).map charOf = digits std bytes := by
    rw [js, List.map_map]
    refine (List.map_congr_left fun c hc => ?_).trans (List.map_id _)
    have hc' := std_lt (mem_digits hc)
    exact charOf_unit (by omega)
  have hlength : (js (digits std bytes)).length = (digits std bytes).length := List.length_map _
  have hquads := length_digits std bytes
  have hdecode := decodeQuads_encode (α := std) false bytes
  rw [encode, if_neg Bool.false_ne_true, List.append_nil] at hdecode
  rw [base64UrlToBytes, replaceAll_ofUrl, map_ofUrl_digits, base64ToBytes, atob, hlength,
    digitsOf_padded (notMem_pad (fun _ => std_lt) bytes) hspace (by omega) (by omega), hchars, hdecode,
    Option.map_some, Option.map_some, toUInt8_toUInt16]

end Decoding

end Tactile.Utils.Encoding
