import Phiola.Framework.Holders
import Phiola.Framework.Machine
import Phiola.Track.Conveyor
import Phiola.Track.Pairing
import Phiola.Track.Lifetime
import Phiola.Track.Guard
import Phiola.Track.Tee
import Phiola.Queue.Ownership
import Phiola.Queue.Conversion
import Phiola.Queue.Parallel
import Phiola.Queue.Selection
import Phiola.Queue.Playback
import Phiola.Queue.Listing
import Phiola.Queue.Filtered
import Phiola.Queue.View
import Phiola.Command.Conf
import Phiola.Command.Options
import Phiola.Command.Session
import Phiola.Command.Blocks
import Phiola.Command.Ownership
import Phiola.Command.Lists
import Phiola.Core.Tasks
import Phiola.Core.DirRead
import Phiola.Core.Loop
import Phiola.Core.Slots
import Phiola.Core.Pool
import Phiola.Core.Timers
import Phiola.Core.Woeh
import Phiola.Cue.Index
import Phiola.Cue.Sheet
import Phiola.Cue.Tags
import Phiola.Cue.Tiling
import Phiola.Cue.Seek
import Phiola.File.Replace
import Phiola.File.Read
import Phiola.Core.Modules
import Phiola.List.Playlist
import Phiola.List.Pls
import Phiola.Net.Http
import Phiola.Adev.Wait
import Phiola.Adev.Shared
import Phiola.Adev.Pause
import Phiola.Afilter.Formats
import Phiola.Format.Meta
import Phiola.Format.Binary
import Phiola.Framework.Memory
import Phiola.Afilter.Pcm
import Phiola.Afilter.Mix
import Phiola.Afilter.Convert
import Phiola.Afilter.Channels
import Phiola.Track.Feed
import Phiola.Acodec.FlacEnc
import Phiola.Framework.Runs
import Phiola.Acodec.MpegDec
import Phiola.Acodec.AacDec
import Phiola.Acodec.OpusDec
import Phiola.Acodec.OpusEnc
import Phiola.Acodec.VorbisEnc
import Phiola.Acodec.AacEnc
import Phiola.Acodec.Blocks
import Phiola.Acodec.VorbisDec
import Phiola.Gui.Filter
import Phiola.Gui.Lists
import Phiola.Android.Filters
import Phiola.Framework.Outcome
import Phiola.Android.Queue
import Phiola.Android.Active
import Phiola.Android.Calls
import Phiola.Android.Next
import Phiola.Android.Lists
import Phiola.Android.Playback
import Phiola.Util.FnTree
import Phiola.Util.FnWalk
import Phiola.Util.FnBlock
import Phiola.Format.TagEdit
import Phiola.Format.TagFrames
import Phiola.Format.FlacOgg
import Phiola.Util.ConfArgs
import Phiola.Util.ConfWrite
import Phiola.File.Name
import Phiola.Format.OggWrite
import Phiola.Format.Adts
import Phiola.Afilter.Soxr
import Phiola.Afilter.Dynanorm
import Phiola.Afilter.Until
import Phiola.Util.Sorted
import Phiola.File.Stdin
import Phiola.File.Stdout
import Phiola.Acodec.FlacDec
import Phiola.Acodec.Ape
import Phiola.Dfilter.Zstd
import Phiola.Framework.Crc
import Phiola.Afilter.CrcTable
import Phiola.Afilter.Peaks
import Phiola.Format.Detector
import Phiola.Track.Auto
import Phiola.Framework.Forest
import Phiola.Util.FnCmp
import Phiola.Android.Lyrics
import Phiola.Framework.KeyLines
import Phiola.Android.UserConf
import Phiola.Android.Explorer
import Phiola.Android.Trash
import Phiola.Command.FormatNames
import Phiola.Format.Reader
