import Instagram.FollowLists
import Instagram.FollowDecision
import Instagram.FollowCommute
import Instagram.Create
import Instagram.MyPosts
import Instagram.MyPostsSignUps
import Instagram.UserShape
import Instagram.PostShape
import Instagram.PostDecode
import Instagram.Likes
import Instagram.CommentCount
import Instagram.CommentQuery
import Instagram.Features
import Instagram.Comments
import Instagram.Feed
import Instagram.HomePage
import Instagram.Progress
import Instagram.UserDocument
import Instagram.Isolation
import Instagram.Share
import Instagram.SharePost
import Instagram.LikeToggles
import Instagram.SignUpForm
import Instagram.AuthListeners
import Instagram.SignOut
import Instagram.SearchScreen
import Instagram.Camera
import Instagram.CameraLoop
import Instagram.Simulation
import Instagram.Ledger
import Instagram.BackendLedger
import Instagram.Serial
import Instagram.BackendSerial
import Instagram.Completion
import Instagram.BackendCompletion
import Instagram.CounterBounds
import Instagram.CommentReadBack
import Instagram.UserList
import Instagram.FeedErrors
import Instagram.FeedScreen
import Instagram.Wrapping
import Instagram.Screens
import Instagram.ScreensFollow
import Instagram.ScreensPosts
import Instagram.ProfileScreen
import Instagram.SignInForm
import Instagram.Clients
import Instagram.WholeApp
import Instagram.WholeScreens
