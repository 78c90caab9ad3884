import BeastOs.Fs.Fat32Read
import BeastOs.Fs.RamFsHandles
import BeastOs.Fs.TarRead
import BeastOs.Lib.CircularBuffer

/-!
# Files

The implementations of the trait `File` (`kernel/src/fs/vfs.rs`): the devices of
`kernel/src/fs/devfs.rs`, files of a RAM file system, of a tar archive and of a FAT32 partition. A
read returns the bytes that it has put into the buffer. The last three are the handles of
`Fs.RamFsHandles`, `Fs.TarRead` and `Fs.Fat32Read`; here they get one type, `PlainFile`, and the
state they all work on, `Devices`.

Reading from `/dev/stdin` waits for keys, and is modelled with the system calls. All other files
only depend on the devices behind them: they take no lock but their own, and never wait.
-/

namespace BeastOs.Syscall

/-! ## Devices -/

structure MouseState where
  (x y : U32)
  (leftButton rightButton middleButton : Bool)

structure Framebuffer where
  physInfo : Option (U64 × U64)
  (width height pitch : U32)

/-- What files are made of. -/
structure Devices where
  mouse : MouseState
  framebuffer : Framebuffer
  /-- the bytes that have arrived at COM1, and those that were sent -/
  (serialIn serialOut : List U8)
  ram : Fs.RamFs
  /-- what the disk answers to the requests of one call -/
  disk : Fs.SectorReads

def MouseState.bytes (m : MouseState) : List U8 :=
  let button (pressed : Bool) (shift : Nat) : U8 := (if pressed then 1 else 0) <<< shift
  leBytes m.x 4 ++ leBytes m.y 4 ++
    [button m.leftButton 0 ||| button m.rightButton 1 ||| button m.middleButton 2, 0, 0, 0]

def Framebuffer.bytes (f : Framebuffer) : List U8 :=
  let info := f.physInfo.getD (0, 0)
  leBytes f.width 4 ++ leBytes f.height 4 ++ leBytes f.pitch 4 ++ leBytes info.1 8 ++
    leBytes info.2 8 ++ [0, 0, 0, 0]

/-! ## The keyboard -/

abbrev KeyboardBuffer := Lib.CircularBuffer U8 256

namespace KeyboardBuffer

def new : KeyboardBuffer := Lib.CircularBuffer.empty 0 (by decide)

def push (b : KeyboardBuffer) (ch : U8) : KeyboardBuffer := b.pushBack ch

def pop (b : KeyboardBuffer) : Option (U8 × KeyboardBuffer) := b.popFront

def isEmpty (b : KeyboardBuffer) : Bool := b.len = 0

/-- The loop that copies `n` characters out. -/
def popMany : Nat → KeyboardBuffer → List U8 × KeyboardBuffer
  | 0, b => ([], b)
  | n + 1, b =>
    match pop b with
    | none => ([], b)
    | some (ch, b) =>
      let (chs, b) := popMany n b
      (ch :: chs, b)

end KeyboardBuffer

/-! ## Files that do not wait -/

inductive PlainFile
  | mouse
  | fb
  | serial
  | ram (handle : Fs.RamFsFileHandle)
  | tar (file : Fs.TarFile)
  | fat32 (file : Fs.Fat32File)
  deriving DecidableEq

namespace PlainFile

/-- `File::read` with a buffer of `len` bytes; `none` is a panic. -/
def read (len : Nat) (d : Devices) :
    PlainFile → Option (Except FsError (List U8) × PlainFile × Devices)
  | mouse => some (.ok (d.mouse.bytes.take len), mouse, d)
  | fb => some (.ok (d.framebuffer.bytes.take len), fb, d)
  | serial =>
    some (.ok (d.serialIn.take len), serial, { d with serialIn := d.serialIn.drop len })
  | ram handle =>
    (handle.read (d.ram.files handle.file) len).toOption.map fun r => (.ok r.1, ram r.2, d)
  | tar file => some (.ok (file.read len).1, tar (file.read len).2, d)
  | fat32 file => (file.read d.disk len).map fun r => (.ok r.1, fat32 r.2, d)

/-- `File::write`, which returns how many bytes it has written; `none` is a panic. -/
def write (data : List U8) (d : Devices) :
    PlainFile → Option (Except FsError Nat × PlainFile × Devices)
  | serial => some (.ok data.length, serial, { d with serialOut := d.serialOut ++ data })
  | ram handle =>
    -- no slice is longer
    if h : data.length ≤ Fs.isizeMax then
      (handle.write (d.ram.files handle.file) ⟨data, h⟩).toOption.map fun r =>
        (.ok r.1, ram r.2.2,
          { d with ram.files := Function.update d.ram.files handle.file r.2.1 })
    else none
  | file => some (.error .permissionDenied, file, d)

/-- `File::seek`; most files cannot. -/
def seek (offset : U64) (d : Devices) : PlainFile → Except FsError U64 × PlainFile
  | ram handle =>
    let r := handle.seek (d.ram.files handle.file) offset
    (r.1, ram r.2)
  | fat32 file => ((file.seek offset).1, fat32 (file.seek offset).2)
  | file => (.error .ioError, file)

end PlainFile

/-- A file that the VFS can open. -/
inductive File
  | stdin
  | plain (file : PlainFile)
  deriving DecidableEq

/-! ## The devices as a file system -/

def deviceList : List String := ["stdin", "mouse", "fb", "serial"]

def devFs : Mounts.FileSystem Devices File where
  «open» path d :=
    let file : Except FsError File :=
      match String.ofList (path.toList.dropWhile (· = '/')) with
      | "stdin" => .ok .stdin
      | "mouse" => .ok (.plain .mouse)
      | "fb" => .ok (.plain .fb)
      | "serial" => .ok (.plain .serial)
      | _ => .error .notFound
    (file, d)
  readDir _ d := (.ok deviceList, d)

end BeastOs.Syscall
