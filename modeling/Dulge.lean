import Dulge.FileConflictSettled
import Dulge.NoUpgrade
import Dulge.BackupKept
import Dulge.FilelistMerge
import Dulge.PackageLoad
import Dulge.TargetNames
import Dulge.SignatureWellFormed
import Dulge.DownloadComplete
import Dulge.BackupHash
import Dulge.SyncDbLines
import Dulge.PacsaveRotation
import Dulge.OwnedDirectory
import Dulge.PackageMatch
import Dulge.DownloadProgress
import Dulge.DownloadResume
import Dulge.GroupCache
import Dulge.DigestFile
import Dulge.SandboxPipe
import Dulge.DownloadContent
import Dulge.HookDirs
import Dulge.ListCopies
import Dulge.Diskspace
import Dulge.MultiselectTyped
import Dulge.MultiselectQuestion
import Dulge.SizeFields
import Dulge.StrReplace
import Dulge.StringLength
import Dulge.WordsplitParts
import Dulge.QueryFileowner
import Dulge.ConfInclude
import Dulge.RecursedepsOrder
