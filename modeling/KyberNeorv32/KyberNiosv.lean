import KyberNeorv32.KyberBasic
import KyberNeorv32.Checksum
import KyberNeorv32.NiosReport

/-!
# `kyber_niosv_basic`: the Nios V firmware's `main`

The same three calls and the same comparison as in `kyber_neorv32_basic`, on another board: the
outcome goes to a console, and `ct_compare` looks at every byte. `Kem` is shared with `KyberBasic`,
so that both programs can be run on the same calls; `Platform` holds what else `main` reads. A run
is the list of the calls that `main` makes, in order, with its return value; `Run.console` is the
text that they print.

`firmwares_agree` compares the two programs on all inputs.
-/

namespace KyberNeorv32.KyberNiosv

open KyberBasic (Kem AllOk)

inductive KemCall
  | keypair
  | enc
  | dec
deriving DecidableEq, Repr

inductive Event
  | altPutstr (text : String)
  | putU64 (value : BitVec 64)
  | putHex32 (value : BitVec 32)
  | putMetric (label : String) (start stop : BitVec 64)
  | randombytesInit (entropy : List (BitVec 8))
  | kem (call : KemCall)
deriving DecidableEq, Repr

structure Run where
  events : List Event
  rc : ℤ
deriving DecidableEq, Repr

/-- The constants of `api.h`, the key and the ciphertext that the calls leave behind, and the
answers of the timestamp driver. `CRYPTO_ALGNAME`, a name such as `Kyber512`, is on one line. -/
structure Platform (publicKeyBytes ciphertextBytes : ℕ) where
  algname : String
  algname_line : '\n' ∉ algname.toList
  secretKeyBytes : ℕ
  publicKey : Vector (BitVec 8) publicKeyBytes
  ciphertext : Vector (BitVec 8) ciphertextBytes
  timestampStart : ℤ
  timestampFreq : BitVec 32
  tStart : BitVec 64
  tRng : BitVec 64
  tKeypair : BitVec 64
  tEnc : BitVec 64
  tDec : BitVec 64
  tCheck : BitVec 64

/-- `main.c:54-62`, from `diff = 0`. -/
def ctCompare (a b : List (BitVec 8)) : BitVec 8 :=
  (a.zip b).foldl (fun diff ab => diff ||| (ab.1 ^^^ ab.2)) 0

/-- `init_deterministic_entropy` (`main.c:75-79`). -/
def deterministicEntropy : List (BitVec 8) :=
  (List.range 48).map fun i => 0x42 + BitVec.ofNat 8 (17 * i)

section Main
variable {n pk ct : ℕ} (k : Kem n) (p : Platform pk ct)

/-- Up to `alt_timestamp_start` (`main.c:94-112`). -/
def banner : List Event :=
  [.altPutstr "\r\n",
    .altPutstr "========================================\r\n",
    .altPutstr " Kyber KEM - Nios V / JTAG UART\r\n",
    .altPutstr "========================================\r\n",
    .altPutstr "Algorithm: ", .altPutstr p.algname, .altPutstr "\r\n",
    .altPutstr "Public key bytes: ", .putU64 (BitVec.ofNat 64 pk), .altPutstr "\r\n",
    .altPutstr "Secret key bytes: ", .putU64 (BitVec.ofNat 64 p.secretKeyBytes), .altPutstr "\r\n",
    .altPutstr "Ciphertext bytes: ", .putU64 (BitVec.ofNat 64 ct), .altPutstr "\r\n",
    .altPutstr "Shared secret bytes: ", .putU64 (BitVec.ofNat 64 n), .altPutstr "\r\n"]

/-- From there to the first call (`main.c:119-126`). -/
def setup : List Event :=
  [.altPutstr "Timestamp frequency: ", .putU64 (p.timestampFreq.setWidth 64),
    .altPutstr " Hz\r\n\r\n", .randombytesInit deterministicEntropy]

/-- After a successful comparison (`main.c:156-171`). -/
def report : List Event :=
  [.altPutstr "Status: success\r\n",
    .altPutstr "Public key checksum: ", .putHex32 (checksum32 p.publicKey.toList),
    .altPutstr "\r\n",
    .altPutstr "Ciphertext checksum: ", .putHex32 (checksum32 p.ciphertext.toList),
    .altPutstr "\r\n\r\n",
    .putMetric "RNG initialization" p.tStart p.tRng,
    .putMetric "Keypair" p.tRng p.tKeypair,
    .putMetric "Encapsulation" p.tKeypair p.tEnc,
    .putMetric "Decapsulation" p.tEnc p.tDec,
    .putMetric "Shared-secret check" p.tDec p.tCheck,
    .putMetric "Total" p.tStart p.tCheck,
    .altPutstr "\r\nDone.\r\n"]

/-- `main.c:81-174`, with its five early returns. -/
def main : Run :=
  let start := banner (n := n) p
  if p.timestampStart ≠ 0 then
    ⟨start ++ [Event.altPutstr "ERROR: alt_timestamp_start failed\r\n"], 1⟩
  else
    let toKeypair := start ++ setup p ++ [Event.kem .keypair]
    if k.rcKeypair ≠ 0 then
      ⟨toKeypair ++ [Event.altPutstr "ERROR: crypto_kem_keypair failed\r\n"], 1⟩
    else
      let toEnc := toKeypair ++ [Event.kem .enc]
      if k.rcEnc ≠ 0 then ⟨toEnc ++ [Event.altPutstr "ERROR: crypto_kem_enc failed\r\n"], 1⟩
      else
        let toDec := toEnc ++ [Event.kem .dec]
        if k.rcDec ≠ 0 then ⟨toDec ++ [Event.altPutstr "ERROR: crypto_kem_dec failed\r\n"], 1⟩
        else if ctCompare k.ssEnc.toList k.ssDec.toList ≠ 0 then
          ⟨toDec ++ [Event.altPutstr "ERROR: shared secrets differ\r\n"], 1⟩
        else ⟨toDec ++ report p, 0⟩

end Main

/-! ## The comparison -/

/-- The accumulator never loses a difference. -/
theorem ctCompareFrom_eq_zero (ps : List (BitVec 8 × BitVec 8)) (diff : BitVec 8) :
    ps.foldl (fun diff ab => diff ||| (ab.1 ^^^ ab.2)) diff = 0 ↔
      diff = 0 ∧ ∀ ab ∈ ps, ab.1 = ab.2 := by
  induction ps generalizing diff with
  | nil => simp
  | cons ab ps ih =>
    rw [List.foldl_cons, ih, List.forall_mem_cons, ← and_assoc]
    apply and_congr_left'
    exact BitVec.or_eq_zero_iff.trans (and_congr_right' BitVec.xor_eq_zero_iff)

theorem forall_mem_zip_eq {as bs : List (BitVec 8)} (h : as.length = bs.length) :
    (∀ ab ∈ as.zip bs, ab.1 = ab.2) ↔ as = bs := by
  induction as generalizing bs with
  | nil => simp [List.eq_nil_of_length_eq_zero h.symm]
  | cons a as ih =>
    cases bs with
    | nil => simp at h
    | cons b bs =>
      have h' : as.length = bs.length := by simpa using h
      rw [List.zip_cons_cons, List.forall_mem_cons, ih h', List.cons.injEq]

/-- `ct_compare` on two buffers of one length answers as the loop that stops early. -/
theorem ctCompare_eq_zero {as bs : List (BitVec 8)} (h : as.length = bs.length) :
    ctCompare as bs = 0 ↔ KyberBasic.compareLoop as bs = 0 := by
  rw [ctCompare, ctCompareFrom_eq_zero, forall_mem_zip_eq h, KyberBasic.compareLoop_eq_zero h]
  simp

/-! ## What a run shows -/

/-- The calls of the third-party code, in order. -/
def kemCalls (events : List Event) : List KemCall :=
  events.filterMap fun
    | .kem call => some call
    | _ => none

/-- What an event prints. `buffer` is what `put_u64` finds in its local array. -/
def Event.text (buffer : Vector Char 21) : Event → Option (List Char)
  | .altPutstr text => some text.toList
  | .putU64 value => KyberNiosv.putU64 buffer value
  | .putHex32 value => some (KyberNiosv.putHex32 value)
  | .putMetric label start stop => KyberNiosv.putMetric buffer label start stop
  | .randombytesInit _ | .kem _ => some []

/-- The text of the events from the `i`-th on; `stack i` is left in memory for the `i`-th. -/
def consoleFrom (stack : ℕ → Vector Char 21) : ℕ → List Event → Option (List Char)
  | _, [] => some []
  | i, e :: es => do
    let text ← e.text (stack i)
    let rest ← consoleFrom stack (i + 1) es
    some (text ++ rest)

def Run.console (stack : ℕ → Vector Char 21) (r : Run) : Option (List Char) :=
  consoleFrom stack 0 r.events

def lines (text : List Char) : List (List Char) := text.splitOn '\n'

def successLine : List Char := "Status: success\r".toList

/-- The success line is a line of the console's text. -/
def Run.PrintsSuccess (stack : ℕ → Vector Char 21) (r : Run) : Prop :=
  ∃ text, r.console stack = some text ∧ successLine ∈ lines text

/-- The same calls in a run of the other firmware. -/
def basicCalls (actions : List KyberBasic.Action) : List KemCall :=
  actions.filterMap fun
    | .work .keypair => some .keypair
    | .work .enc => some .enc
    | .work .dec => some .dec
    | _ => none

variable {n pk ct : ℕ}

/-- The calls up to the first that fails. -/
def attempted (k : Kem n) : List KemCall :=
  if k.rcKeypair ≠ 0 then [.keypair] else if k.rcEnc ≠ 0 then [.keypair, .enc]
  else [.keypair, .enc, .dec]

@[simp] theorem kemCalls_append (es fs : List Event) :
    kemCalls (es ++ fs) = kemCalls es ++ kemCalls fs := List.filterMap_append

@[simp] theorem kemCalls_putstr (text : String) (es : List Event) :
    kemCalls (.altPutstr text :: es) = kemCalls es := rfl

@[simp] theorem kemCalls_kem (call : KemCall) (es : List Event) :
    kemCalls (.kem call :: es) = call :: kemCalls es := rfl

@[simp] theorem kemCalls_nil : kemCalls [] = [] := rfl

section
variable (p : Platform pk ct)

@[simp] theorem kemCalls_banner : kemCalls (banner (n := n) p) = [] := rfl

@[simp] theorem kemCalls_setup : kemCalls (setup p) = [] := rfl

@[simp] theorem kemCalls_report : kemCalls (report p) = [] := rfl

/-! ## The text -/

/-- What an event prints, by the value it prints. -/
def Event.chars : Event → List Char
  | .altPutstr text => text.toList
  | .putU64 value => Nat.toDigits 10 value.toNat
  | .putHex32 value => KyberNiosv.putHex32 value
  | .putMetric label start stop =>
    label.toList ++ ": ".toList ++ Nat.toDigits 10 (stop - start).toNat ++ " ticks\r\n".toList
  | .randombytesInit _ | .kem _ => []

theorem Event.text_eq (buffer : Vector Char 21) (e : Event) : e.text buffer = some e.chars := by
  cases e with
  | putU64 value => exact putU64_eq buffer value
  | putMetric label start stop =>
    simp only [Event.text, KyberNiosv.putMetric, putU64_eq, Option.bind_eq_bind, Option.bind_some,
      Event.chars]
  | altPutstr text => rfl
  | putHex32 value => rfl
  | randombytesInit entropy => rfl
  | kem call => rfl

theorem consoleFrom_eq (stack : ℕ → Vector Char 21) (i : ℕ) (es : List Event) :
    consoleFrom stack i es = some (es.flatMap Event.chars) := by
  induction es generalizing i with
  | nil => rfl
  | cons e es ih =>
    simp only [consoleFrom, Event.text_eq, ih, Option.bind_eq_bind, Option.bind_some, List.flatMap_cons]

theorem printsSuccess_iff (stack : ℕ → Vector Char 21) (r : Run) :
    r.PrintsSuccess stack ↔ successLine ∈ lines (r.events.flatMap Event.chars) := by
  unfold Run.PrintsSuccess Run.console
  rw [consoleFrom_eq]
  simp

/-- Whole lines, none of which is the success line. -/
def Silent (text : List Char) : Prop :=
  ∃ ls : List (List Char), text = ls.flatMap (· ++ ['\n']) ∧ ∀ l ∈ ls, '\n' ∉ l ∧ l ≠ successLine

theorem Silent.append {text text' : List Char} (h : Silent text) (h' : Silent text') :
    Silent (text ++ text') := by
  obtain ⟨ls, rfl, hls⟩ := h
  obtain ⟨ls', rfl, hls'⟩ := h'
  refine ⟨ls ++ ls', by simp, ?_⟩
  intro l hl
  rcases List.mem_append.1 hl with hl | hl
  · exact hls l hl
  · exact hls' l hl

theorem Silent.line {l : List Char} (hbreak : '\n' ∉ l) (hne : l ≠ successLine) :
    Silent (l ++ ['\n']) :=
  ⟨[l], by simp, by simpa using ⟨hbreak, hne⟩⟩

/-- A line that starts with a label of its own. -/
theorem Silent.labelled {label middle last : List Char} (hlabel : '\n' ∉ label)
    (hne : ¬ label <+: successLine) (hmiddle : '\n' ∉ middle) (hlast : '\n' ∉ last) :
    Silent (label ++ middle ++ last ++ ['\n']) := by
  apply Silent.line
  · simp [hlabel, hmiddle, hlast]
  · intro heq
    exact hne ⟨middle ++ last, by rw [← heq, List.append_assoc]⟩

/-- The lines of a text that starts with whole lines. -/
theorem Silent.lines {text : List Char} (h : Silent text) (rest : List Char) :
    successLine ∈ lines (text ++ rest) ↔ successLine ∈ lines rest := by
  obtain ⟨ls, rfl, hls⟩ := h
  induction ls with
  | nil => rfl
  | cons l ls ih =>
    obtain ⟨hbreak, hne⟩ := hls l (by simp)
    have hsplit : KyberNiosv.lines ((l :: ls).flatMap (· ++ ['\n']) ++ rest) =
        l :: KyberNiosv.lines (ls.flatMap (· ++ ['\n']) ++ rest) := by
      rw [List.flatMap_cons, List.append_assoc, List.append_assoc]
      exact List.splitOn_append_cons_self_of_not_mem hbreak _
    rw [hsplit, List.mem_cons, ih fun l' hl' => hls l' (by simp [hl'])]
    simp [hne.symm]

theorem newline_notMem_toDigits (n : ℕ) : '\n' ∉ Nat.toDigits 10 n := by
  intro h
  have hdigit := Nat.isDigit_of_mem_toDigits (by norm_num) (by norm_num) h
  exact absurd hdigit (by decide)

/-- `label`, a number and the end of the line. -/
theorem silent_number (label : String) (hlabel : '\n' ∉ label.toList)
    (hne : ¬ label.toList <+: successLine) (value : BitVec 64) :
    Silent ([.altPutstr label, .putU64 value, .altPutstr "\r\n"].flatMap Event.chars) := by
  have h := Silent.labelled hlabel hne (newline_notMem_toDigits value.toNat)
    (show '\n' ∉ "\r".toList by decide)
  simpa [Event.chars] using h

theorem silent_banner : Silent ((banner (n := n) p).flatMap Event.chars) := by
  have halg : Silent
      ([.altPutstr "Algorithm: ", .altPutstr p.algname, .altPutstr "\r\n"].flatMap Event.chars) := by
    have h := Silent.labelled (show '\n' ∉ "Algorithm: ".toList by decide) (by decide) p.algname_line
      (show '\n' ∉ "\r".toList by decide)
    simpa [Event.chars] using h
  have hhead : Silent ([Event.altPutstr "\r\n",
      .altPutstr "========================================\r\n",
      .altPutstr " Kyber KEM - Nios V / JTAG UART\r\n",
      .altPutstr "========================================\r\n"].flatMap Event.chars) := by
    refine ⟨["\r".toList, "========================================\r".toList,
      " Kyber KEM - Nios V / JTAG UART\r".toList,
      "========================================\r".toList], by decide, ?_⟩
    decide
  have hpublic := silent_number "Public key bytes: " (by decide) (by decide)
    (BitVec.ofNat 64 pk)
  have hsecret := silent_number "Secret key bytes: " (by decide) (by decide)
    (BitVec.ofNat 64 p.secretKeyBytes)
  have hcipher := silent_number "Ciphertext bytes: " (by decide) (by decide)
    (BitVec.ofNat 64 ct)
  have hshared := silent_number "Shared secret bytes: " (by decide) (by decide)
    (BitVec.ofNat 64 n)
  have h := hhead.append (halg.append (hpublic.append (hsecret.append (hcipher.append hshared))))
  simp only [← List.flatMap_append] at h
  exact h

theorem silent_setup : Silent ((setup p).flatMap Event.chars) := by
  have hfreq := (Silent.labelled (show '\n' ∉ "Timestamp frequency: ".toList by decide) (by decide)
    (newline_notMem_toDigits (p.timestampFreq.setWidth 64).toNat)
    (show '\n' ∉ " Hz\r".toList by decide)).append
      (Silent.line (show '\n' ∉ "\r".toList by decide) (by decide))
  simpa [setup, Event.chars] using hfreq

/-- Everything up to the first call. -/
theorem silent_start : Silent ((banner (n := n) p ++ setup p).flatMap Event.chars) := by
  rw [List.flatMap_append]
  exact (silent_banner p).append (silent_setup p)

theorem report_lines : successLine ∈ lines ((report p).flatMap Event.chars) := by
  have hstatus : (report p).flatMap Event.chars =
      successLine ++ '\n' :: (report p).tail.flatMap Event.chars := rfl
  rw [hstatus, lines, List.splitOn_append_cons_self_of_not_mem (by decide)]
  exact List.mem_cons_self

end

/-- A call prints nothing. -/
theorem Silent.kem {es : List Event} (h : Silent (es.flatMap Event.chars)) (call : KemCall) :
    Silent ((es ++ [Event.kem call]).flatMap Event.chars) := by
  rw [List.flatMap_append]
  show Silent (_ ++ [])
  rw [List.append_nil]
  exact h

/-- What the five early returns have in common. -/
theorem earlyReturn_spec (stack : ℕ → Vector Char 21) {r : Run} {es : List Event} {l err : String}
    (hr : r = ⟨es ++ [Event.altPutstr err], 1⟩) (hes : Silent (es.flatMap Event.chars))
    (herr : err.toList = l.toList ++ ['\n']) (hbreak : '\n' ∉ l.toList)
    (hne : l.toList ≠ successLine) :
    kemCalls r.events = kemCalls es ∧ r.rc = 1 ∧ ¬ r.PrintsSuccess stack := by
  subst hr
  refine ⟨by simp, rfl, ?_⟩
  have htext : (es ++ [Event.altPutstr err]).flatMap Event.chars =
      es.flatMap Event.chars ++ (l.toList ++ ['\n']) ++ [] := by
    rw [List.flatMap_append, ← herr]
    simp [Event.chars]
  rw [printsSuccess_iff, htext, (hes.append (Silent.line hbreak hne)).lines]
  decide

/-- **The six ways through `main`**: the calls are those up to the first failure, and the
success line and the return value 0 come together, when all went well on a board with a working
timestamp. -/
theorem main_spec (k : Kem n) (p : Platform pk ct) (stack : ℕ → Vector Char 21) :
    (p.timestampStart ≠ 0 ∧ kemCalls (main k p).events = [] ∧
      (main k p).rc = 1 ∧ ¬ (main k p).PrintsSuccess stack) ∨
    (p.timestampStart = 0 ∧ kemCalls (main k p).events = attempted k ∧
      ((AllOk k ∧ (main k p).rc = 0 ∧ (main k p).PrintsSuccess stack) ∨
        (¬ AllOk k ∧ (main k p).rc = 1 ∧ ¬ (main k p).PrintsSuccess stack))) := by
  have hkeypair := (silent_start (n := n) p).kem .keypair
  have henc := hkeypair.kem .enc
  have hdec := henc.kem .dec
  by_cases h0 : p.timestampStart = 0
  · refine Or.inr ⟨h0, ?_⟩
    by_cases h1 : k.rcKeypair = 0
    · by_cases h2 : k.rcEnc = 0
      · by_cases h3 : k.rcDec = 0
        · have hcmp : ctCompare k.ssEnc.toList k.ssDec.toList = 0 ↔
              ∀ i : Fin n, k.ssEnc.get i = k.ssDec.get i := by
            rw [ctCompare_eq_zero (by simp), KyberBasic.compareLoop_vector]
          by_cases h4 : ctCompare k.ssEnc.toList k.ssDec.toList = 0
          · have hm : main k p = ⟨banner (n := n) p ++ setup p ++ [Event.kem .keypair] ++
                [Event.kem .enc] ++ [Event.kem .dec] ++ report p, 0⟩ := by
              simp only [main, h0, h1, h2, h3, h4, ne_eq, not_true, if_false]
            refine ⟨by simp [hm, attempted, h1, h2], Or.inl ⟨⟨h1, h2, h3, hcmp.1 h4⟩, ?_, ?_⟩⟩
            · rw [hm]
            · rw [hm, printsSuccess_iff, List.flatMap_append, hdec.lines]
              exact report_lines p
          · have hm : main k p = ⟨banner (n := n) p ++ setup p ++ [Event.kem .keypair] ++
                [Event.kem .enc] ++ [Event.kem .dec] ++
                [Event.altPutstr "ERROR: shared secrets differ\r\n"], 1⟩ := by
              simp only [main, h0, h1, h2, h3, h4, ne_eq, not_true, not_false_iff, if_true, if_false]
            obtain ⟨hcalls, hrc, hno⟩ := earlyReturn_spec stack (l := "ERROR: shared secrets differ\r")
              hm hdec (by decide) (by decide) (by decide)
            refine ⟨by simp [hcalls, attempted, h1, h2], Or.inr ⟨?_, hrc, hno⟩⟩
            exact fun hok => h4 (hcmp.2 hok.2.2.2)
        · have hm : main k p = ⟨banner (n := n) p ++ setup p ++ [Event.kem .keypair] ++
              [Event.kem .enc] ++ [Event.kem .dec] ++
              [Event.altPutstr "ERROR: crypto_kem_dec failed\r\n"], 1⟩ := by
            simp only [main, h0, h1, h2, h3, ne_eq, not_true, not_false_iff, if_true, if_false]
          obtain ⟨hcalls, hrc, hno⟩ := earlyReturn_spec stack (l := "ERROR: crypto_kem_dec failed\r")
            hm hdec (by decide) (by decide) (by decide)
          refine ⟨by simp [hcalls, attempted, h1, h2], Or.inr ⟨?_, hrc, hno⟩⟩
          exact fun hok => h3 hok.2.2.1
      · have hm : main k p = ⟨banner (n := n) p ++ setup p ++ [Event.kem .keypair] ++
            [Event.kem .enc] ++ [Event.altPutstr "ERROR: crypto_kem_enc failed\r\n"], 1⟩ := by
          simp only [main, h0, h1, h2, ne_eq, not_true, not_false_iff, if_true, if_false]
        obtain ⟨hcalls, hrc, hno⟩ := earlyReturn_spec stack (l := "ERROR: crypto_kem_enc failed\r")
          hm henc (by decide) (by decide) (by decide)
        refine ⟨by simp [hcalls, attempted, h1, h2], Or.inr ⟨?_, hrc, hno⟩⟩
        exact fun hok => h2 hok.2.1
    · have hm : main k p = ⟨banner (n := n) p ++ setup p ++ [Event.kem .keypair] ++
          [Event.altPutstr "ERROR: crypto_kem_keypair failed\r\n"], 1⟩ := by
        simp only [main, h0, h1, ne_eq, not_true, not_false_iff, if_true, if_false]
      obtain ⟨hcalls, hrc, hno⟩ := earlyReturn_spec stack (l := "ERROR: crypto_kem_keypair failed\r")
        hm hkeypair (by decide) (by decide) (by decide)
      refine ⟨by simp [hcalls, attempted, h1], Or.inr ⟨?_, hrc, hno⟩⟩
      exact fun hok => h1 hok.1
  · have hm : main k p = ⟨banner (n := n) p ++
        [Event.altPutstr "ERROR: alt_timestamp_start failed\r\n"], 1⟩ := by
      simp only [main, h0, ne_eq, not_false_iff, if_true]
    obtain ⟨hcalls, hrc, hno⟩ := earlyReturn_spec stack (l := "ERROR: alt_timestamp_start failed\r")
      hm (silent_banner p) (by decide) (by decide) (by decide)
    exact Or.inl ⟨h0, by simp [hcalls], hrc, hno⟩

theorem basicCalls_main (k : Kem n) : basicCalls (KyberBasic.main k).actions = attempted k := by
  rcases KyberBasic.main_cases k with ⟨h, hm⟩ | ⟨h1, h, hm⟩ | ⟨h1, h2, h, hm⟩ |
    ⟨h1, h2, h3, -, hm, -⟩ | ⟨h, hm⟩
  · simp [hm, attempted, h, basicCalls]
  · simp [hm, attempted, h1, h, basicCalls]
  · simp [hm, attempted, h1, h2, basicCalls]
  · simp [hm, attempted, h1, h2, basicCalls]
  · simp [hm, attempted, h.1, h.2.1, basicCalls]

/-- **The two firmwares give the same verdict**, on every outcome of the three calls and shared
secrets of every length. Both return 0 exactly when everything went well, the Nios V firmware then
prints the success line; otherwise both return nonzero and no such line is on the console, whatever
the algorithm's name and the numbers printed. Neither makes a call after one that failed. -/
theorem firmwares_agree (k : Kem n) (p : Platform pk ct) (hstart : p.timestampStart = 0)
    (stack : ℕ → Vector Char 21) :
    ((KyberBasic.main k).rc = 0 ↔ (main k p).rc = 0 ∧ (main k p).PrintsSuccess stack) ∧
    ((KyberBasic.main k).rc = 0 ↔ k.rcKeypair = 0 ∧ k.rcEnc = 0 ∧ k.rcDec = 0 ∧
      ∀ i : Fin n, k.ssEnc.get i = k.ssDec.get i) ∧
    ((KyberBasic.main k).rc ≠ 0 → (main k p).rc ≠ 0 ∧ ¬ (main k p).PrintsSuccess stack) ∧
    basicCalls (KyberBasic.main k).actions = attempted k ∧
    kemCalls (main k p).events = attempted k := by
  have hbasic := KyberBasic.main_rc_eq_zero k
  rcases main_spec k p stack with ⟨hfail, -⟩ | ⟨-, hcalls, hout⟩
  · exact absurd hstart hfail
  · refine ⟨?_, hbasic, ?_, basicCalls_main k, hcalls⟩
    · rw [hbasic]
      rcases hout with ⟨hok, hrc, hprint⟩ | ⟨hno, hrc, hprint⟩
      · simp [hok, hrc, hprint]
      · simp [hno, hprint]
    · intro hne
      rcases hout with ⟨hok, -, -⟩ | ⟨-, hrc, hprint⟩
      · exact absurd (hbasic.2 hok) hne
      · exact ⟨by rw [hrc]; decide, hprint⟩

/-- A board whose timestamp works. -/
def somePlatform : Platform 2 2 where
  algname := "Kyber512"
  algname_line := by decide
  secretKeyBytes := 2
  publicKey := #v[1, 2]
  ciphertext := #v[3, 4]
  timestampStart := 0
  timestampFreq := 50000000
  tStart := 1
  tRng := 2
  tKeypair := 3
  tEnc := 4
  tDec := 5
  tCheck := 6

/-- The secrets differ in their last byte. -/
def lastByteDiffers : Kem 3 := ⟨0, 0, 0, #v[1, 2, 3], #v[1, 2, 4]⟩

theorem firmwares_agree_last_byte : (KyberBasic.main lastByteDiffers).rc ≠ 0 ∧
    (main lastByteDiffers somePlatform).rc ≠ 0 ∧
    ¬ (main lastByteDiffers somePlatform).PrintsSuccess fun _ => Vector.replicate 21 '?' := by
  have hne : (KyberBasic.main lastByteDiffers).rc ≠ 0 := by decide
  exact ⟨hne, (firmwares_agree lastByteDiffers somePlatform rfl fun _ =>
    Vector.replicate 21 '?').2.2.1 hne⟩

end KyberNeorv32.KyberNiosv
