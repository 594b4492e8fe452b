namespace HeaderBinding

structure ModuleList where
  names : List String
  deriving DecidableEq, Repr

namespace ModuleList

def sameModule (a b : String) : Bool :=
  a.toLower == b.toLower

def empty : ModuleList := ⟨[]⟩

def contains (l : ModuleList) (module : String) : Bool :=
  l.names.any (sameModule · module)

def push (l : ModuleList) (module : String) : ModuleList :=
  if l.contains module then l else ⟨l.names ++ [module]⟩

def extend (l : ModuleList) (modules : List String) : ModuleList :=
  modules.foldl push l

def ofList (modules : List String) : ModuleList :=
  empty.extend modules

def size (l : ModuleList) : Nat :=
  l.names.length

def standardNames : List String :=
  ["kernel32.dll", "user32.dll", "advapi32.dll", "gdi32.dll", "shell32.dll", "shlwapi.dll", "ntdll.dll",
    "version.dll", "winmm.dll", "ws2_32.dll"]

def furtherNames : List String :=
  ["oleaut32.dll", "ole32.dll", "msvcrt.dll", "msimg32.dll", "winscard.dll", "winspool.drv",
    "comctl32.dll"]

def standard : ModuleList := ofList standardNames

def extended : ModuleList := standard.extend furtherNames

end ModuleList

end HeaderBinding
