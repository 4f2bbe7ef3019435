import MyCppCode.MyServer.LogStream

/-!
# Logging — the record that a `Logger` writes

A `Logger` puts the time, the level and, through its stream, the operands of the caller into a
`FixedBuffer`; its destructor adds the place in the source and passes the buffer to `g_output`.

`record` is what the pieces amount to when none of them is cut.  The code takes 17 characters of a
time that has 19, 7 characters of microseconds that have 6 and a `'\0'`, and passes on the whole
block instead of the part before the cursor.  The `'\0'` alone keeps every output from being the
record: it is the character 23, which in the record is one of the digits of the microseconds.
-/

namespace MyCppCode
namespace MyServer

open Foundation LogStream

/-- `struct tm` of a moment after 1970. -/
structure Tm where
  tm_year : Nat
  tm_mon : Fin 12
  tm_mday : Fin 32
  tm_hour : Fin 24
  tm_min : Fin 60
  tm_sec : Fin 61

namespace Logging

/-- What the record takes from the system: the local time of a second since 1970, the texts of error
numbers, and `%.12g`. -/
structure Platform where
  localtime : Nat → Tm
  strerror_r : Int → List Char
  format12g : Float → List Char

inductive LogLevel
  | TRACE
  | DEBUG
  | INFO
  | WARN
  | ERROR
  | FATAL
  deriving DecidableEq

def getLevelName : LogLevel → List Char
  | .TRACE => "TRACE ".toList
  | .DEBUG => "DEBUG".toList
  | .INFO => "INFO ".toList
  | .WARN => "WARN ".toList
  | .ERROR => "ERROR ".toList
  | .FATAL => "FATAL ".toList

/-- `SourceFile`: the part of the name behind the last `'/'`. -/
def sourceFile (filename : List Char) : List Char :=
  (filename.reverse.takeWhile (· ≠ '/')).reverse

/-- A piece of memory, with any content. -/
abbrev Block (n : Nat) := { block : List Char // block.length = n }

/-- A conversion with a field width. -/
def pad (fill : Char) (width : Nat) (text : List Char) : List Char :=
  List.replicate (width - text.length) fill ++ text

/-- `snprintf(buf, sizeof(buf), …)`: the memory of `buf` afterwards. -/
def printInto (buf text : List Char) : List Char :=
  snprintf buf.length text ++ '\x00' :: buf.drop ((snprintf buf.length text).length + 1)

/-- `"%4d/%02d/%02d %02d:%02d:%02d"`. -/
def timeText (tm : Tm) : List Char :=
  pad ' ' 4 (decimal (tm.tm_year + 1900)) ++ '/' :: pad '0' 2 (decimal (tm.tm_mon + 1)) ++
    '/' :: pad '0' 2 (decimal tm.tm_mday) ++ ' ' :: pad '0' 2 (decimal tm.tm_hour) ++
    ':' :: pad '0' 2 (decimal tm.tm_min) ++ ':' :: pad '0' 2 (decimal tm.tm_sec)

def kMicroSecondsPerSecond : Nat := 1000000

structure Logger where
  m_stream : LogStream.Buffer
  m_level : LogLevel
  m_line : Int32
  m_file : List Char

section Code

variable (P : Platform) (memory : Block kSmallBuffer) (t_time : Block 64) (now : Nat)

/-- `Logger::Impl::formatTime`; `t_time` is the buffer of the thread, `now` the time in
microseconds. -/
def formatTime (b : LogStream.Buffer) : Except Halt LogStream.Buffer := do
  let seconds := now / kMicroSecondsPerSecond
  let microSec := now % kMicroSecondsPerSecond
  let t_time := printInto t_time.1 (timeText (P.localtime seconds))
  let buf := printInto (List.replicate 32 '\x00') (pad '0' 6 (decimal microSec))
  let b ← LogStream.insert P.format12g b (.general t_time 17)
  LogStream.insert P.format12g b (.general buf 7)

/-- `Logger::Impl::Impl`. -/
def impl (level : LogLevel) (savedErrno : Int32) (file : List Char) (line : Int32) :
    Except Halt Logger := do
  let b ← formatTime P t_time now (FixedBuffer.init memory.1 memory.2)
  let b ← LogStream.insert P.format12g b (.general (getLevelName level ++ ['\x00']) 6)
  let errno : List Operand :=
    if savedErrno ≠ 0 then
      [.cstr (some (P.strerror_r savedErrno.toInt)), .cstr (some " errno is ".toList),
        .integer (.int savedErrno)]
    else
      []
  let b ← errno.foldlM (LogStream.insert P.format12g) b
  .ok ⟨b, level, line, sourceFile file⟩

/-- The three constructors of `Logger`. -/
inductive Constructor
  | file
  | level (level : LogLevel)
  | func (level : LogLevel) (func : List Char)

def construct (file : List Char) (line : Int32) : Constructor → Except Halt Logger
  | .file => impl P memory t_time now .INFO 0 file line
  | .level level => impl P memory t_time now level 0 file line
  | .func level func => do
      let logger ← impl P memory t_time now level 0 file line
      let b ← [Operand.cstr (some func), .char ' '].foldlM (LogStream.insert P.format12g) logger.m_stream
      .ok { logger with m_stream := b }

/-- `Logger::Impl::finish`. -/
def finish (logger : Logger) : Except Halt LogStream.Buffer :=
  [Operand.cstr (some " - ".toList), .general (logger.m_file ++ ['\x00']) logger.m_file.length,
    .cstr (some " : ".toList), .integer (.int logger.m_line), .cstr (some "\n".toList)].foldlM
    (LogStream.insert P.format12g) logger.m_stream

/-- What the destructor does: the characters passed to `g_output`, and whether it then aborts. -/
structure Destroyed where
  output : List Char
  aborts : Bool

def destroy (logger : Logger) : Except Halt Destroyed := do
  let b ← finish P logger
  .ok ⟨b.m_data.take b.length, logger.m_level = .FATAL⟩

/-- The life of a `Logger`: constructed, the operands streamed into it, destroyed. -/
def log (file : List Char) (line : Int32) (constructor : Constructor) (operands : List Operand) :
    Except Halt Destroyed := do
  let logger ← construct P memory t_time now file line constructor
  let b ← operands.foldlM (LogStream.insert P.format12g) logger.m_stream
  destroy P { logger with m_stream := b }

end Code

/-! ## The record -/

section Record

variable (P : Platform)

/-- The text that an operand stands for. -/
def rendering : Operand → List Char
  | .integer v => formatInt v.value
  | .float v => P.format12g v.toFloat
  | .double v => P.format12g v
  | .char c => [c]
  | .cstr (some str) => str.takeWhile (· ≠ '\x00')
  | .cstr none => "(null)".toList
  | .string str => str
  | .buffer buf => buf.m_data.take buf.m_cur
  | .general m_data m_len => m_data.take m_len.toNat

def Constructor.levelOf : Constructor → LogLevel
  | .file => .INFO
  | .level l => l
  | .func l _ => l

/-- The constructor with a function name streams the name and a blank. -/
def Constructor.operands : Constructor → List Operand
  | .file => []
  | .level _ => []
  | .func _ f => [.cstr (some f), .char ' ']

/-- The date and time, the microseconds, the level, the operands and the place in the source. -/
def record (now : Nat) (file : List Char) (line : Int32) (constructor : Constructor)
    (operands : List Operand) : List Char :=
  timeText (P.localtime (now / kMicroSecondsPerSecond)) ++
    pad '0' 6 (decimal (now % kMicroSecondsPerSecond)) ++
    getLevelName constructor.levelOf ++
    (constructor.operands ++ operands).flatMap (rendering P) ++
    " - ".toList ++ sourceFile file ++ " : ".toList ++ formatInt line.toInt ++ "\n".toList

end Record

/-! ## The character 23 -/

theorem length_pad_of_lt {n : Nat} (h : n < kMicroSecondsPerSecond) :
    (pad '0' 6 (decimal n)).length = 6 := by
  have hlen : (decimal n).length ≤ 6 :=
    (Nat.length_toDigits_le_iff (by decide) (by decide)).2 h
  simp only [pad, List.length_append, List.length_replicate]
  omega

/-- The buffer of the microseconds has its `'\0'` behind six digits. -/
theorem getElem?_printInto_micros {n : Nat} (h : n < kMicroSecondsPerSecond) :
    (printInto (List.replicate 32 '\x00') (pad '0' 6 (decimal n)))[6]? = some '\x00' := by
  have hlen := length_pad_of_lt h
  have hfits : snprintf 32 (pad '0' 6 (decimal n)) = pad '0' 6 (decimal n) :=
    snprintf_of_length_lt (by omega)
  rw [printInto, List.length_replicate, hfits, List.getElem?_append_right (by omega), hlen]
  rfl

theorem le_length_printInto (buf text : List Char) : buf.length ≤ (printInto buf text).length := by
  simp only [printInto, List.length_append, List.length_cons, List.length_drop]
  omega

theorem getElem?_overwrite {v text : List Char} {pos i : Nat} (hpos : pos ≤ v.length)
    (hi : i < text.length) : (overwrite v pos text)[pos + i]? = text[i]? := by
  have hlen : (v.take pos).length = pos := by
    simp [hpos]
  rw [overwrite, List.append_assoc, List.getElem?_append_right (by omega), hlen,
    Nat.add_sub_cancel_left, List.getElem?_append_left hi]

/-- The cursor is behind a character 23 that is `'\0'`. -/
structure Spoilt (b : LogStream.Buffer) : Prop where
  cur : 23 < b.m_cur
  char : b.m_data[23]? = some '\x00'

theorem Spoilt.extends {b b' : LogStream.Buffer} (hb : Spoilt b) (h : Extends b b') : Spoilt b' := by
  refine ⟨hb.cur.trans_le h.cur_le, ?_⟩
  rw [h.getElem? hb.cur]
  exact hb.char

variable {P : Platform} {memory : Block kSmallBuffer} {t_time : Block 64} {now : Nat}

theorem formatTime_spec (P : Platform) (memory : Block kSmallBuffer) (t_time : Block 64) (now : Nat) :
    ∃ b, formatTime P t_time now (FixedBuffer.init memory.1 memory.2) = .ok b ∧ Spoilt b := by
  let b₀ : LogStream.Buffer := FixedBuffer.init memory.1 memory.2
  let time := printInto t_time.1 (timeText (P.localtime (now / kMicroSecondsPerSecond)))
  let buf := printInto (List.replicate 32 '\x00')
    (pad '0' 6 (decimal (now % kMicroSecondsPerSecond)))
  have htime : 17 ≤ time.length := by
    refine le_trans ?_ (le_length_printInto _ _)
    rw [t_time.2]
    decide
  have hbuf : 7 ≤ buf.length := by
    refine le_trans ?_ (le_length_printInto _ _)
    decide
  have hroom : 17 < b₀.avail := by
    show 17 < kSmallBuffer - 0
    decide
  obtain ⟨b₁, hb₁, -, hcur₁⟩ := FixedBuffer.append_spec hroom htime
  have hcur₁ : b₁.m_cur = 17 := hcur₁
  have havail : 7 < b₁.avail := by
    rw [FixedBuffer.avail, hcur₁]
    decide
  obtain ⟨b₂, hb₂, hdata₂, hcur₂⟩ := FixedBuffer.append_spec (b := b₁) havail hbuf
  refine ⟨b₂, ?_, by omega, ?_⟩
  · show (b₀.append time 17 >>= fun b => b.append buf 7) = .ok b₂
    rw [hb₁]
    exact hb₂
  · -- character 23 is the seventh of the second piece, which starts at 17
    have hlen : (17 : Nat) ≤ b₁.m_data.length := by
      rw [b₁.length_data]
      decide
    have hmicro : now % kMicroSecondsPerSecond < kMicroSecondsPerSecond := Nat.mod_lt _ (by decide)
    have hseven : (buf.take 7).length = 7 := List.length_take_of_le hbuf
    rw [hdata₂, hcur₁, getElem?_overwrite (i := 6) hlen (by omega),
      List.getElem?_take_of_lt (by decide)]
    exact getElem?_printInto_micros hmicro

/-- Nothing that follows reaches back to the time. -/
theorem spoilt_of_impl {level : LogLevel} {savedErrno : Int32} {file : List Char} {line : Int32}
    {logger : Logger} (h : impl P memory t_time now level savedErrno file line = .ok logger) :
    Spoilt logger.m_stream := by
  obtain ⟨b, hb, hspoilt⟩ := formatTime_spec P memory t_time now
  unfold impl at h
  obtain ⟨b₁, hb₁, h⟩ := bind_eq_ok h
  cases hb.symm.trans hb₁
  obtain ⟨b₂, hb₂, h⟩ := bind_eq_ok h
  obtain ⟨b₃, hb₃, h⟩ := bind_eq_ok h
  cases h
  exact (hspoilt.extends (insert_extends hb₂)).extends (foldlM_insert_extends hb₃)

theorem spoilt_of_construct {file : List Char} {line : Int32} {constructor : Constructor}
    {logger : Logger} (h : construct P memory t_time now file line constructor = .ok logger) :
    Spoilt logger.m_stream := by
  cases constructor with
  | file => exact spoilt_of_impl h
  | level l => exact spoilt_of_impl h
  | func l f =>
      obtain ⟨logger₁, hlogger₁, h⟩ := bind_eq_ok h
      obtain ⟨b, hb, h⟩ := bind_eq_ok h
      cases h
      exact (spoilt_of_impl hlogger₁).extends (foldlM_insert_extends hb)

/-- Whatever is logged, the output is a whole block with a `'\0'` inside the time. -/
theorem output_of_log {file : List Char} {line : Int32} {constructor : Constructor}
    {operands : List Operand} {destroyed : Destroyed}
    (h : log P memory t_time now file line constructor operands = .ok destroyed) :
    destroyed.output.length = kSmallBuffer ∧ destroyed.output[23]? = some '\x00' := by
  obtain ⟨logger, hlogger, h⟩ := bind_eq_ok h
  obtain ⟨b, hb, h⟩ := bind_eq_ok h
  obtain ⟨b', hb', h⟩ := bind_eq_ok h
  cases h
  have hspoilt : Spoilt b' :=
    ((spoilt_of_construct hlogger).extends (foldlM_insert_extends hb)).extends
      (foldlM_insert_extends hb')
  have hwhole : b'.m_data.take b'.length = b'.m_data :=
    List.take_of_length_le b'.length_data.le
  simp only [hwhole]
  exact ⟨b'.length_data, hspoilt.char⟩

/-! ## A `Logger` always gets to its output -/

theorem exists_impl (P : Platform) (memory : Block kSmallBuffer) (t_time : Block 64) (now : Nat)
    (level : LogLevel) (file : List Char) (line : Int32) :
    ∃ logger, impl P memory t_time now level 0 file line = .ok logger := by
  obtain ⟨b, hb, -⟩ := formatTime_spec P memory t_time now
  have hlevel : Operand.Readable P.format12g (.general (getLevelName level ++ ['\x00']) 6) := by
    show SizeT.ofInt 6 ≤ (getLevelName level ++ ['\x00']).length
    cases level <;> decide
  obtain ⟨b₁, hb₁⟩ := exists_insert b hlevel
  refine ⟨⟨b₁, level, line, sourceFile file⟩, ?_⟩
  rw [impl, hb]
  simp only [bind, Except.bind, hb₁]
  rfl

theorem exists_construct (P : Platform) (memory : Block kSmallBuffer) (t_time : Block 64) (now : Nat)
    (file : List Char) (line : Int32) (constructor : Constructor) :
    ∃ logger, construct P memory t_time now file line constructor = .ok logger := by
  cases constructor with
  | file => exact exists_impl P memory t_time now .INFO file line
  | level l => exact exists_impl P memory t_time now l file line
  | func l f =>
      obtain ⟨logger, hlogger⟩ := exists_impl P memory t_time now l file line
      have hfunc : ∀ operand ∈ [Operand.cstr (some f), .char ' '], operand.Readable P.format12g := by
        simp [Operand.Readable]
      obtain ⟨b, hb⟩ := exists_foldlM_insert logger.m_stream hfunc
      refine ⟨{ logger with m_stream := b }, ?_⟩
      simp only [construct, hlogger, bind, Except.bind, hb]

theorem exists_destroy (P : Platform) (logger : Logger) :
    ∃ destroyed, destroy P logger = .ok destroyed := by
  have hfile : Operand.Readable P.format12g
      (.general (logger.m_file ++ ['\x00']) logger.m_file.length) := by
    show SizeT.ofInt logger.m_file.length ≤ (logger.m_file ++ ['\x00']).length
    rw [List.length_append]
    unfold SizeT.ofInt
    omega
  have hall : ∀ operand ∈ [.cstr (some " - ".toList),
      .general (logger.m_file ++ ['\x00']) logger.m_file.length, .cstr (some " : ".toList),
      .integer (.int logger.m_line), .cstr (some "\n".toList)],
      Operand.Readable P.format12g operand := by
    simp only [List.forall_mem_cons]
    exact ⟨trivial, hfile, trivial, trivial, trivial, by simp⟩
  obtain ⟨b, hb⟩ := exists_foldlM_insert logger.m_stream hall
  refine ⟨⟨b.m_data.take b.length, logger.m_level = .FATAL⟩, ?_⟩
  rw [destroy, finish, hb]
  rfl

theorem exists_log (P : Platform) (memory : Block kSmallBuffer) (t_time : Block 64) (now : Nat)
    (file : List Char) (line : Int32) (constructor : Constructor) {operands : List Operand}
    (h : ∀ operand ∈ operands, operand.Readable P.format12g) :
    ∃ destroyed, log P memory t_time now file line constructor operands = .ok destroyed := by
  obtain ⟨logger, hlogger⟩ := exists_construct P memory t_time now file line constructor
  obtain ⟨b, hb⟩ := exists_foldlM_insert logger.m_stream h
  obtain ⟨destroyed, hdestroyed⟩ := exists_destroy P { logger with m_stream := b }
  refine ⟨destroyed, ?_⟩
  simp only [log, hlogger, bind, Except.bind, hb]
  exact hdestroyed

/-! ## The output is never the record -/

theorem nul_notMem_pad {fill : Char} (hfill : fill ≠ '\x00') (width n : Nat) :
    '\x00' ∉ pad fill width (decimal n) := by
  intro hmem
  rcases List.mem_append.1 hmem with hmem | hmem
  · exact hfill (List.eq_of_mem_replicate hmem).symm
  · have hdigit : ('\x00' : Char).isDigit := Nat.isDigit_of_mem_toDigits (by decide) (by decide) hmem
    exact absurd hdigit (by decide)

theorem le_length_pad (fill : Char) (width : Nat) (text : List Char) :
    width ≤ (pad fill width text).length := by
  simp only [pad, List.length_append, List.length_replicate]
  omega

theorem nul_notMem_timeText (tm : Tm) : '\x00' ∉ timeText tm := by
  have hblank : ∀ width n, '\x00' ∉ pad ' ' width (decimal n) := nul_notMem_pad (by decide)
  have hzero : ∀ width n, '\x00' ∉ pad '0' width (decimal n) := nul_notMem_pad (by decide)
  simp [timeText, hblank, hzero]

theorem le_length_timeText (tm : Tm) : 19 ≤ (timeText tm).length := by
  have hyear := le_length_pad ' ' 4 (decimal (tm.tm_year + 1900))
  have hpair := le_length_pad '0' 2
  have hmon := hpair (decimal (tm.tm_mon + 1))
  have hday := hpair (decimal tm.tm_mday)
  have hhour := hpair (decimal tm.tm_hour)
  have hmin := hpair (decimal tm.tm_min)
  have hsec := hpair (decimal tm.tm_sec)
  simp only [timeText, List.length_append, List.length_cons]
  omega

/-- Character 23 of the record is a digit of the time or of the microseconds. -/
theorem getElem?_record_ne (P : Platform) (now : Nat) (file : List Char) (line : Int32)
    (constructor : Constructor) (operands : List Operand) :
    (record P now file line constructor operands)[23]? ≠ some '\x00' := by
  let head := timeText (P.localtime (now / kMicroSecondsPerSecond)) ++
    pad '0' 6 (decimal (now % kMicroSecondsPerSecond))
  have hlen : 23 < head.length := by
    have htime := le_length_timeText (P.localtime (now / kMicroSecondsPerSecond))
    have hmicro := le_length_pad '0' 6 (decimal (now % kMicroSecondsPerSecond))
    simp only [head, List.length_append]
    omega
  have hhead : (record P now file line constructor operands)[23]? = head[23]? := by
    simp only [record, List.append_assoc]
    rw [← List.append_assoc]
    exact List.getElem?_append_left hlen
  rw [hhead]
  intro hnul
  have hmem : '\x00' ∈ head := List.mem_of_getElem? hnul
  rcases List.mem_append.1 hmem with hmem | hmem
  · exact nul_notMem_timeText _ hmem
  · exact nul_notMem_pad (by decide) _ _ hmem

/-- No sequence of operands, whatever the platform, the memory, the time and the place, is logged as
its record. -/
theorem log_ne_record (P : Platform) (memory : Block kSmallBuffer) (t_time : Block 64) (now : Nat)
    (file : List Char) (line : Int32) (constructor : Constructor) (operands : List Operand) :
    ¬ ∃ destroyed, log P memory t_time now file line constructor operands = .ok destroyed ∧
      destroyed.output = record P now file line constructor operands := by
  rintro ⟨destroyed, hlog, houtput⟩
  have hnul := (output_of_log hlog).2
  rw [houtput] at hnul
  exact getElem?_record_ne P now file line constructor operands hnul

/-- A platform that knows one second, 22:13:20 on 14 November 2023. -/
def november : Platform where
  localtime := fun _ => ⟨123, 10, 14, 22, 13, 20⟩
  strerror_r := fun _ => []
  format12g := fun _ => []

def zeros (n : Nat) : Block n := ⟨List.replicate n '\x00', List.length_replicate⟩

/-- `LOG_INFO << "ready"` on line 7 of `main.cpp`: a record of 51 characters that would fit, and an
output of 4000. -/
theorem log_ready_ne_record :
    (record november 1700000000123456 "src/main.cpp".toList 7 .file
        [.cstr (some "ready".toList)]).length = 51 ∧
      ∃ destroyed,
        log november (zeros kSmallBuffer) (zeros 64) 1700000000123456 "src/main.cpp".toList 7 .file
          [.cstr (some "ready".toList)] = .ok destroyed ∧
        destroyed.output ≠
          record november 1700000000123456 "src/main.cpp".toList 7 .file
            [.cstr (some "ready".toList)] := by
  refine ⟨by decide, ?_⟩
  have hall : ∀ operand ∈ [.cstr (some "ready".toList)],
      Operand.Readable november.format12g operand := by
    simp [Operand.Readable]
  obtain ⟨destroyed, hlog⟩ := exists_log november (zeros kSmallBuffer) (zeros 64) 1700000000123456
    "src/main.cpp".toList 7 .file hall
  refine ⟨destroyed, hlog, ?_⟩
  intro houtput
  have hnul := (output_of_log hlog).2
  rw [houtput] at hnul
  exact getElem?_record_ne _ _ _ _ _ _ hnul

end Logging
end MyServer
end MyCppCode
